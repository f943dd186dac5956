import CssExtract.Proofs.HeadText
import CssExtract.Script.Head

namespace CssExtract.Script

open Text

variable {s a b r : List Char} {c x : Char} {t : Terminal} {i n depth pending : Nat}
  {previous : Option Terminal}

theorem tokensFrom_pending :
    tokensFrom i depth previous pending s = tokensFrom (i + pending) depth previous 0 (s.drop pending) := by
  induction pending generalizing i s with
  | zero => rfl
  | succ pending ih =>
      cases s with
      | nil => simp [tokensFrom]
      | cons c s =>
          rw [tokensFrom, ih, List.drop_succ_cons]
          congr 1
          omega

theorem tokensFrom_gap (hc : isGap c = true) :
    tokensFrom i depth previous 0 (c :: s) = tokensFrom (i + 1) depth previous 0 s := by
  rw [tokensFrom, if_pos hc]

/-- No token but one that begins with a point depends on the one before it, and within brackets
none does. -/
theorem tokensFrom_token (hdepth : depth ≠ 0 ∨ c ≠ '.') (hgap : isGap c = false)
    (ht : terminal? (c :: (a ++ r)) = some (t, a.length + 1)) :
    tokensFrom i depth previous 0 (c :: (a ++ r)) =
      ⟨some t, c :: a, i⟩ ::
        tokensFrom (i + (a.length + 1)) (depthAfter depth t) (some t) 0 r := by
  have htoken (chain : Bool) (hchain : chain = true → depth = 0) :
      tokenAt chain i (c :: (a ++ r)) = ⟨some t, c :: a, i⟩ := by
    have hpoint : (chain && (c :: (a ++ r)).head? = some '.') = false := by
      cases chain with
      | false => rfl
      | true => simpa using hdepth.resolve_left (by simp [hchain])
    rw [tokenAt, hpoint, ht]
    simp
  rw [tokensFrom, hgap]
  dsimp only
  rw [htoken _ (by simp +contextual)]
  simp only [Bool.false_eq_true, if_false, List.length_cons, Nat.add_sub_cancel]
  rw [tokensFrom_pending, List.drop_left]
  congr 2
  omega

theorem stringTail?_append {q : Char} (hq : isQuote q = true) (h : stringTail? q s = some n)
    (r : List Char) : stringTail? q (s ++ r) = some n := by
  fun_induction stringTail? q s generalizing n with
  | case1 => simp at h
  | case2 => simp at h
  | case3 c s hc ih =>
      obtain ⟨k, hk, rfl⟩ := Option.map_eq_some_iff.1 h
      simp [stringTail?, hc, ih hk]
  | case4 s =>
      rw [List.cons_append, stringTail?_cons (ne_backslash_of_isQuote hq), if_pos rfl]
      exact h
  | case5 => simp at h
  | case6 c s hescape hquote hplain ih =>
      obtain ⟨k, hk, rfl⟩ := Option.map_eq_some_iff.1 h
      have hback : c ≠ '\\' := by
        rintro rfl
        simp at hplain
      have hline : c ≠ '\n' := by
        rintro rfl
        simp at hplain
      rw [List.cons_append, stringTail?_cons hback, if_neg hquote, if_neg hline, ih hk, Option.map_some]

theorem templateTail?_cons (h : c ≠ '\\') (s : List Char) :
    templateTail? (c :: s) = if c = '`' then some 1 else (templateTail? s).map (· + 1) := by
  cases s <;> simp [templateTail?, h]

theorem templateTail?_append (h : templateTail? s = some n) (r : List Char) :
    templateTail? (s ++ r) = some n := by
  fun_induction templateTail? s generalizing n with
  | case1 => simp at h
  | case2 => simp at h
  | case3 c s hc ih =>
      obtain ⟨k, hk, rfl⟩ := Option.map_eq_some_iff.1 h
      simp [templateTail?, hc, ih hk]
  | case4 s =>
      rw [List.cons_append, templateTail?_cons (by decide), if_pos rfl]
      exact h
  | case5 => simp at h
  | case6 c s hescape htick hback ih =>
      obtain ⟨k, hk, rfl⟩ := Option.map_eq_some_iff.1 h
      rw [List.cons_append, templateTail?_cons hback, if_neg htick, ih hk, Option.map_some]

theorem templateTail?_le (h : templateTail? s = some n) : n ≤ s.length := by
  fun_induction templateTail? s generalizing n with
  | case1 => simp at h
  | case2 => simp at h
  | case3 c s hc ih | case6 c s _ _ _ ih =>
      obtain ⟨k, hk, rfl⟩ := Option.map_eq_some_iff.1 h
      have := ih hk
      simp only [List.length_cons]
      omega
  | case4 s => obtain rfl := Option.some.inj h; simp
  | case5 => simp at h

structure EndsToken (x : Char) : Prop where
  name : isAsciiNamePart x = false
  number : EndsNumber x
  operator : isOperator x = false

theorem endsToken_paren : EndsToken ')' := ⟨by decide, by constructor <;> decide, by decide⟩

theorem plain_of_isNameStart (h : isNameStart c = true) :
    isGap c = false ∧ isQuote c = false ∧ c ≠ '`' ∧ c ≠ '=' := by
  have hc : c ∉ [' ', '\t', '\x0c', '\r', '\n', '\'', '"', '`', '='] := fun hmem => by
    simp only [List.mem_cons, List.not_mem_nil, or_false] at hmem
    rcases hmem with rfl | rfl | rfl | rfl | rfl | rfl | rfl | rfl | rfl <;> exact absurd h (by decide)
  simp only [List.mem_cons, List.not_mem_nil, or_false, not_or] at hc
  simp [isGap, isQuote, hc]

theorem nameLength?_before (hx : EndsToken x) (hne : s ≠ []) (w : List Char) :
    nameLength? isAsciiNamePart (s ++ x :: w) = nameLength? isAsciiNamePart s := by
  cases s with
  | nil => exact absurd rfl hne
  | cons c s => simp only [List.cons_append, nameLength?, takeWhile_barrier hx.name]

theorem numberLength?_eq_none (hdigit : isDigit c = false) (hpoint : c ≠ '.') (s : List Char) :
    numberLength? (c :: s) = none := by
  simp [numberLength?_eq, mantissaLength, digitsLength, hdigit, hpoint]

theorem numberLength?_quote (hc : isQuote c = true) (s : List Char) : numberLength? (c :: s) = none := by
  simp only [isQuote, Bool.or_eq_true, decide_eq_true_eq] at hc
  apply numberLength?_eq_none <;> rcases hc with rfl | rfl <;> decide

theorem signedNumberLength?_quote (hc : isQuote c = true) (s : List Char) :
    signedNumberLength? (c :: s) = none := by
  have hsign : c ≠ '-' := by
    rintro rfl
    exact absurd hc (by decide)
  simpa [signedNumberLength?, hsign] using numberLength?_quote hc s

theorem terminal?_quote (hc : isQuote c = true) (s : List Char) :
    terminal? (c :: s) = (stringTail? c s).map fun n => (.string, n + 1) := by
  have hnone := numberLength?_quote hc s
  simp only [isQuote, Bool.or_eq_true, decide_eq_true_eq] at hc
  rcases hc with rfl | rfl
  all_goals
    simp only [terminal?, stringLength?, hnone]
    simp [nameLength?, isNameStart, templateLength?, isOperator, punctuation?, Function.comp_def]

theorem terminal?_tick (s : List Char) :
    terminal? ('`' :: s) = (templateTail? s).map fun n => (.template, n + 1) := by
  have hnone : numberLength? ('`' :: s) = none := numberLength?_eq_none (by decide) (by decide) s
  simp only [terminal?, templateLength?, hnone]
  simp [nameLength?, isNameStart, stringLength?, isOperator, punctuation?, Function.comp_def]

theorem terminal?_plain (hc : isQuote c = false) (htick : c ≠ '`') (s : List Char) :
    terminal? (c :: s) =
      if c = '=' ∧ s.head? = some '>' then some (.arrow, 2)
      else ((nameLength? isAsciiNamePart (c :: s)).map (.name, ·)).or <|
        ((numberLength? (c :: s)).map (.number, ·)).or <|
        if isOperator c then some (.operator, ((c :: s).takeWhile isOperator).length)
        else (punctuation? c).map (·, 1) := by
  have hstring : stringLength? (c :: s) = none := by
    simp only [isQuote, Bool.or_eq_false_iff, decide_eq_false_iff_not] at hc
    simp [stringLength?, hc]
  have htemplate : templateLength? (c :: s) = none := by simp [templateLength?, htick]
  split_ifs with harrow
  · obtain ⟨rfl, hhead⟩ := harrow
    obtain ⟨s, rfl⟩ := List.head?_eq_some_iff.1 hhead
    rfl
  all_goals
    rw [terminal?.eq_def]
    split
    · simp_all
    · simp_all
    · rename_i hcons
      obtain ⟨rfl, rfl⟩ := List.cons.inj hcons
      simp_all

theorem terminal?_name (ha : IsName a) (hr : Ends r.head?) :
    terminal? (a ++ r) = some (.name, a.length) := by
  have hlength := nameLength?_append ha hr
  obtain ⟨c, a, rfl, hc, -⟩ := ha
  obtain ⟨-, hquote, htick, hequals⟩ := plain_of_isNameStart hc
  rw [List.cons_append] at hlength ⊢
  rw [terminal?_plain hquote htick, hlength]
  simp [hequals]

/-- A terminal that is recognised is the same in front of a character that ends tokens. -/
theorem terminal?_before (hx : EndsToken x) (h : terminal? s = some (t, n)) (w : List Char) :
    terminal? (s ++ x :: w) = some (t, n) := by
  cases s with
  | nil => simp [terminal?] at h
  | cons c s =>
      by_cases hquote : isQuote c = true
      · rw [terminal?_quote hquote] at h
        obtain ⟨k, hk, hsame⟩ := Option.map_eq_some_iff.1 h
        rw [List.cons_append, terminal?_quote hquote, stringTail?_append hquote hk, Option.map_some,
          hsame]
      rw [Bool.not_eq_true] at hquote
      by_cases htick : c = '`'
      · subst htick
        rw [terminal?_tick] at h
        obtain ⟨k, hk, hsame⟩ := Option.map_eq_some_iff.1 h
        rw [List.cons_append, terminal?_tick, templateTail?_append hk, Option.map_some, hsame]
      have hhead : (s ++ x :: w).head? = some '>' ↔ s.head? = some '>' := by
        have hgreater : x ≠ '>' := by
          rintro rfl
          exact absurd hx.operator (by decide)
        cases s <;> simp [hgreater]
      have hname := nameLength?_before hx (List.cons_ne_nil c s) w
      have hnumber := numberLength?_barrier hx.number (c :: s) w
      have hoperator := takeWhile_barrier hx.operator (c :: s) w
      rw [List.cons_append] at hname hnumber hoperator
      rw [terminal?_plain hquote htick] at h
      rw [List.cons_append, terminal?_plain hquote htick]
      simp only [hhead, hname, hnumber, hoperator, h]

theorem numberLength?_pos (h : numberLength? s = some n) : 0 < n := by
  rw [numberLength?_eq] at h
  have hle : digitsLength s ≤ mantissaLength s := by
    simp only [mantissaLength]
    split <;> omega
  split_ifs at h with hnone
  obtain rfl := Option.some.inj h
  simp only [Bool.and_eq_true, decide_eq_true_eq, not_and] at hnone
  by_cases hzero : digitsLength s = 0
  · have := hnone hzero
    omega
  · omega

theorem nameLength?_pos {part : Char → Bool} (h : nameLength? part s = some n) : 0 < n := by
  cases s with
  | nil => simp [nameLength?] at h
  | cons c s =>
      simp only [nameLength?] at h
      split_ifs at h
      obtain rfl := Option.some.inj h
      omega

theorem terminal?_le (h : terminal? s = some (t, n)) : 0 < n ∧ n ≤ s.length := by
  cases s with
  | nil => simp [terminal?] at h
  | cons c s =>
      by_cases hquote : isQuote c = true
      · rw [terminal?_quote hquote] at h
        obtain ⟨k, hk, hsame⟩ := Option.map_eq_some_iff.1 h
        obtain ⟨-, rfl⟩ := Prod.mk.inj hsame
        have := stringTail?_le hk
        simp only [List.length_cons]
        omega
      rw [Bool.not_eq_true] at hquote
      by_cases htick : c = '`'
      · subst htick
        rw [terminal?_tick] at h
        obtain ⟨k, hk, hsame⟩ := Option.map_eq_some_iff.1 h
        obtain ⟨-, rfl⟩ := Prod.mk.inj hsame
        have := templateTail?_le hk
        simp only [List.length_cons]
        omega
      rw [terminal?_plain hquote htick] at h
      -- a name or a number, unless it is what the last of the alternatives gives
      have chain {last : Option (Terminal × Nat)}
          (h : ((nameLength? isAsciiNamePart (c :: s)).map (Terminal.name, ·)).or
            (((numberLength? (c :: s)).map (.number, ·)).or last) = some (t, n)) :
          (0 < n ∧ n ≤ (c :: s).length) ∨ last = some (t, n) := by
        rcases Option.or_eq_some_iff.1 h with h | ⟨-, h⟩
        · obtain ⟨k, hk, hsame⟩ := Option.map_eq_some_iff.1 h
          obtain ⟨-, rfl⟩ := Prod.mk.inj hsame
          exact .inl ⟨nameLength?_pos hk, nameLength?_le hk⟩
        · rcases Option.or_eq_some_iff.1 h with h | ⟨-, h⟩
          · obtain ⟨k, hk, hsame⟩ := Option.map_eq_some_iff.1 h
            obtain ⟨-, rfl⟩ := Prod.mk.inj hsame
            exact .inl ⟨numberLength?_pos hk, numberLength?_le hk⟩
          · exact .inr h
      split_ifs at h with harrow hoperator
      · obtain ⟨s, rfl⟩ := List.head?_eq_some_iff.1 harrow.2
        obtain ⟨-, rfl⟩ := Prod.mk.inj (Option.some.inj h)
        simp
      · rcases chain h with hle | h
        · exact hle
        · obtain ⟨-, rfl⟩ := Prod.mk.inj (Option.some.inj h)
          exact ⟨by simp [hoperator], (List.takeWhile_sublist _).length_le⟩
      · rcases chain h with hle | h
        · exact hle
        · obtain ⟨_, -, hsame⟩ := Option.map_eq_some_iff.1 h
          obtain ⟨-, rfl⟩ := Prod.mk.inj hsame
          simp

theorem exists_cons_of_terminal? (h : terminal? (c :: s) = some (t, n)) :
    ∃ a r, s = a ++ r ∧ n = a.length + 1 := by
  obtain ⟨hpos, hle⟩ := terminal?_le h
  rw [List.length_cons] at hle
  exact ⟨s.take (n - 1), s.drop (n - 1), by simp, by simp; omega⟩

/-- Every bracket is closed by its own closer, the last opened first, from those closers on that
are due already; and there is no character that starts no token. -/
def nests : List Terminal → List Token → Bool
  | closers, [] => closers.isEmpty
  | closers, token :: rest =>
    match token.terminal with
    | none => false
    | some t =>
      match t.closer? with
      | some closer => nests (closer :: closers) rest
      | none =>
        if t.isCloser then
          match closers with
          | closer :: closers => t = closer && nests closers rest
          | [] => false
        else nests closers rest

def Legible (x : List Char) : Prop := nests [] (tokensFrom 0 1 none 0 x) = true

instance (x : List Char) : Decidable (Legible x) := inferInstanceAs (Decidable (_ = true))

theorem terminal?_bracket (hc : punctuation? c = some t) (hdot : t ≠ .dot) (s : List Char) :
    isGap c = false ∧ terminal? (c :: s) = some (t, 1) := by
  simp only [punctuation?] at hc
  split at hc
  · obtain rfl := Option.some.inj hc
    exact absurd rfl hdot
  case h_9 => simp at hc
  all_goals
    obtain rfl := Option.some.inj hc
    refine ⟨by decide, ?_⟩
    rw [terminal?_plain (by decide) (by decide), numberLength?_eq_none (by decide) (by decide)]
    simp [nameLength?, isNameStart, isOperator, punctuation?]

theorem tokensFrom_bracket (hc : punctuation? c = some t) (hdot : t ≠ .dot) :
    tokensFrom i depth previous 0 (c :: s) =
      ⟨some t, [c], i⟩ :: tokensFrom (i + 1) (depthAfter depth t) (some t) 0 s := by
  obtain ⟨hgap, hterminal⟩ := terminal?_bracket hc hdot s
  have hne : c ≠ '.' := by
    rintro rfl
    exact hdot (Option.some.inj hc).symm
  simpa using tokensFrom_token (a := []) (.inr hne) hgap (by simpa using hterminal)

section

variable {head : Head} {arguments : List Argument} {current : OpenArgument} {closer k : Terminal}
  {closers : List Terminal} {last : Nat} {token : Token} {tokens : List Token}

theorem readTokens_plain (ht : token.terminal = some t) (hopen : t.closer? = none)
    (hclose : t.isCloser = false) (hcloser : closer.isCloser = true) :
    readTokens s (.call head arguments (some current) (closer :: closers)) last (token :: tokens) =
      readTokens s (.call head arguments (some (extend (some current) token [])) (closer :: closers))
        token.start tokens := by
  have hne : t ≠ closer := by
    rintro rfl
    simp [hclose] at hcloser
  simp only [readTokens, ht, HeadState.step?, hopen, hclose, hne, if_false, Bool.false_eq_true]

theorem readTokens_open (ht : token.terminal = some t) (hopen : t.closer? = some k) :
    readTokens s (.call head arguments (some current) (closer :: closers)) last (token :: tokens) =
      readTokens s (.call head arguments (some (extend (some current) token []))
        (k :: closer :: closers)) token.start tokens := by
  simp only [readTokens, ht, HeadState.step?, hopen]

theorem readTokens_close (ht : token.terminal = some closer) (hopen : closer.closer? = none) :
    readTokens s (.call head arguments (some current) (closer :: closers)) last (token :: tokens) =
      readTokens s (.call head arguments (some (extend (some current) token [])) closers)
        token.start tokens := by
  simp only [readTokens, ht, HeadState.step?, hopen, if_true]

end

theorem Terminal.isCloser_of_closer? {t k : Terminal} (h : t.closer? = some k) :
    k.isCloser = true ∧ k.closer? = none := by
  cases t <;> simp [closer?] at h <;> subst h <;> decide

theorem Terminal.ne_dot_of_closer? {t k : Terminal} (h : t.closer? = some k) : t ≠ .dot ∧ k ≠ .dot := by
  cases t <;> simp [closer?] at h <;> subst h <;> decide

/-- In front of `r` the text is read within a bracket, which stays open, as are all around it. -/
def Within (a r : List Char) : Prop :=
  ∀ (s : List Char) (head : Head) (arguments : List Argument) (current : OpenArgument)
    (closer : Terminal) (closers : List Terminal) (last i : Nat) (previous : Option Terminal),
    closer.isCloser = true → ∃ current' last' previous',
      readTokens s (.call head arguments (some current) (closer :: closers)) last
          (tokensFrom i (closers.length + 2) previous 0 (a ++ r)) =
        readTokens s (.call head arguments (some current') (closer :: closers)) last'
          (tokensFrom (i + a.length) (closers.length + 2) previous' 0 r)

namespace Within

theorem nil (r : List Char) : Within [] r := by
  intro _ _ _ current _ _ last _ previous _
  exact ⟨current, last, previous, rfl⟩

theorem append (ha : Within a (b ++ r)) (hb : Within b r) : Within (a ++ b) r := by
  intro s head arguments current closer closers last i previous hcloser
  obtain ⟨current', last', previous', ha⟩ :=
    ha s head arguments current closer closers last i previous hcloser
  obtain ⟨current'', last'', previous'', hb⟩ :=
    hb s head arguments current' closer closers last' (i + a.length) previous' hcloser
  refine ⟨current'', last'', previous'', ?_⟩
  rw [List.append_assoc, ha, hb, List.length_append, Nat.add_assoc]

theorem gap (hc : isGap c = true) (r : List Char) : Within [c] r := by
  intro _ _ _ current _ _ last _ previous _
  refine ⟨current, last, previous, ?_⟩
  rw [List.singleton_append, tokensFrom_gap hc, List.length_singleton]

theorem gaps (ha : ∀ c ∈ a, isGap c = true) (r : List Char) : Within a r := by
  induction a with
  | nil => exact nil r
  | cons c a ih =>
      obtain ⟨hc, ha⟩ := List.forall_mem_cons.1 ha
      exact append (a := [c]) (gap hc _) (ih ha)

theorem token (hgap : isGap c = false) (ht : terminal? (c :: (a ++ r)) = some (t, a.length + 1))
    (hopen : t.closer? = none) (hclose : t.isCloser = false) : Within (c :: a) r := by
  intro s head arguments current closer closers last i previous hcloser
  refine ⟨extend (some current) ⟨some t, c :: a, i⟩ [], i, some t, ?_⟩
  have hdepth : depthAfter (closers.length + 2) t = closers.length + 2 := by
    simp [depthAfter, hopen, hclose]
  rw [List.cons_append, tokensFrom_token (.inl (by omega)) hgap ht, readTokens_plain rfl hopen hclose hcloser,
    hdepth, List.length_cons]

theorem group {opener closer : Char} {o k : Terminal} (hopen : punctuation? opener = some o)
    (hclose : punctuation? closer = some k) (hpair : o.closer? = some k)
    (ha : Within a (closer :: r)) : Within (opener :: (a ++ [closer])) r := by
  intro s head arguments current outer closers last i previous houter
  obtain ⟨hk, hknone⟩ := Terminal.isCloser_of_closer? hpair
  obtain ⟨hodot, hkdot⟩ := Terminal.ne_dot_of_closer? hpair
  obtain ⟨current', last', previous', ha⟩ := ha s head arguments
    (extend (some current) ⟨some o, [opener], i⟩ []) k (outer :: closers) i (i + 1) (some o) hk
  refine ⟨extend (some current') ⟨some k, [closer], i + 1 + a.length⟩ [], i + 1 + a.length, some k, ?_⟩
  have hodepth : depthAfter (closers.length + 2) o = (outer :: closers).length + 2 := by
    simp [depthAfter, hpair]
  have hkdepth : depthAfter ((outer :: closers).length + 2) k = closers.length + 2 := by
    simp [depthAfter, hknone, hk]
  rw [List.cons_append, List.append_assoc, List.singleton_append, tokensFrom_bracket hopen hodot,
    readTokens_open rfl hpair, hodepth, ha, tokensFrom_bracket hclose hkdot,
    readTokens_close rfl hknone, hkdepth]
  congr 2
  simp
  omega

end Within

theorem exists_token {due : List Terminal} (hdepth : depth ≠ 0) (hgap : isGap c = false)
    (h : nests due (tokensFrom i depth previous 0 (c :: s)) = true) :
    ∃ t a r, s = a ++ r ∧ terminal? (c :: (a ++ r)) = some (t, a.length + 1) ∧
      nests due (⟨some t, c :: a, i⟩ ::
        tokensFrom (i + (a.length + 1)) (depthAfter depth t) (some t) 0 r) = true := by
  cases ht : terminal? (c :: s) with
  | none =>
      rw [tokensFrom, hgap] at h
      simp [hdepth, tokenAt, ht, nests] at h
  | some found =>
      obtain ⟨t, n⟩ := found
      obtain ⟨a, r, rfl, rfl⟩ := exists_cons_of_terminal? ht
      exact ⟨t, a, r, rfl, ht, by rwa [tokensFrom_token (.inl hdepth) hgap ht] at h⟩

/-- What is due after a token that nests is what is open in a call after it. -/
theorem exists_due {due : List Terminal} {token : Token} {tokens : List Token}
    (hdue : ∀ k ∈ due, k.isCloser = true) (h : nests due (token :: tokens) = true)
    (ht : token.terminal = some t) : ∃ due' : List Terminal,
      (∀ k ∈ due', k.isCloser = true) ∧ nests due' tokens = true ∧
      (∀ d, depthAfter (due.length + (d + 1)) t = due'.length + (d + 1)) ∧
      ∀ (s : List Char) (head : Head) (arguments : List Argument) (current : OpenArgument)
        (closer : Terminal) (closers : List Terminal) (last : Nat) (token : Token) (tokens : List Token),
        closer.isCloser = true → token.terminal = some t →
          readTokens s (.call head arguments (some current) (due ++ closer :: closers)) last
              (token :: tokens) =
            readTokens s (.call head arguments (some (extend (some current) token []))
              (due' ++ closer :: closers)) token.start tokens := by
  -- the innermost bracket that is open, be it of the text or around it
  have htop {closer : Terminal} (closers : List Terminal) (hcloser : closer.isCloser = true) :
      ∃ top below, due ++ closer :: closers = top :: below ∧ top.isCloser = true := by
    cases due with
    | nil => exact ⟨closer, closers, rfl, hcloser⟩
    | cons k due => exact ⟨k, due ++ closer :: closers, rfl, hdue k List.mem_cons_self⟩
  simp only [nests, ht] at h
  cases hopen : t.closer? with
  | some k =>
      simp only [hopen] at h
      refine ⟨k :: due, ?_, h, fun d => ?_, ?_⟩
      · exact List.forall_mem_cons.2 ⟨(Terminal.isCloser_of_closer? hopen).1, hdue⟩
      · simp [depthAfter, hopen]
        omega
      · intro s head arguments current closer closers last token tokens hcloser hterminal
        obtain ⟨top, below, hsame, -⟩ := htop closers hcloser
        rw [List.cons_append, hsame, readTokens_open hterminal hopen]
  | none =>
      cases hclose : t.isCloser with
      | false =>
          simp only [hopen, hclose] at h
          refine ⟨due, hdue, h, fun d => by simp [depthAfter, hopen, hclose], ?_⟩
          intro s head arguments current closer closers last token tokens hcloser hterminal
          obtain ⟨top, below, hsame, hclosing⟩ := htop closers hcloser
          rw [hsame, readTokens_plain hterminal hopen hclose hclosing]
      | true =>
          cases due with
          | nil => simp [hopen, hclose] at h
          | cons k due =>
              simp only [hopen, hclose, if_true, Bool.and_eq_true, decide_eq_true_eq] at h
              obtain ⟨rfl, hrest⟩ := h
              refine ⟨due, (List.forall_mem_cons.1 hdue).2, hrest, fun d => ?_, ?_⟩
              · simp [depthAfter, hopen, hclose]
                omega
              · intro s head arguments current closer closers last token tokens _ hterminal
                rw [List.cons_append, readTokens_close hterminal hopen]

/-- Brackets that are open already are closed by what is due. -/
theorem readTokens_of_nests {x r : List Char} {due : List Terminal} {j : Nat} (hc : EndsToken c)
    (hdue : ∀ k ∈ due, k.isCloser = true)
    (h : nests due (tokensFrom j (due.length + 1) previous 0 x) = true)
    (head : Head) (arguments : List Argument) (current : OpenArgument) {closer : Terminal}
    (closers : List Terminal) (last i : Nat) (previous₁ : Option Terminal)
    (hcloser : closer.isCloser = true) :
    ∃ current' last' previous',
      readTokens s (.call head arguments (some current) (due ++ closer :: closers)) last
          (tokensFrom i (due.length + (closers.length + 2)) previous₁ 0 (x ++ c :: r)) =
        readTokens s (.call head arguments (some current') (closer :: closers)) last'
          (tokensFrom (i + x.length) (closers.length + 2) previous' 0 (c :: r)) := by
  induction hn : x.length using Nat.strongRecOn
    generalizing x due j previous current last i previous₁ with
  | _ n ih =>
    cases x with
    | nil =>
        have hnil : due = [] := by simpa [tokensFrom, nests] using h
        subst hnil
        exact ⟨current, last, previous₁, by simp [← hn]⟩
    | cons d x =>
        cases hgap : isGap d with
        | true =>
            rw [tokensFrom_gap hgap] at h
            obtain ⟨current', last', previous', hread⟩ :=
              ih x.length (by simp [← hn]) hdue h current last (i + 1) previous₁ rfl
            refine ⟨current', last', previous', ?_⟩
            rw [List.cons_append, tokensFrom_gap hgap, hread, ← hn, List.length_cons]
            congr 2
            omega
        | false =>
            obtain ⟨t, a, x, rfl, ht, hrest⟩ := exists_token (by omega) hgap h
            have ht' : terminal? (d :: (a ++ (x ++ c :: r))) = some (t, a.length + 1) := by
              simpa using terminal?_before hc ht r
            obtain ⟨due', hdue', hnests, hdepth, hstep⟩ := exists_due hdue hrest rfl
            have hlength : depthAfter (due.length + 1) t = due'.length + 1 := hdepth 0
            have hlength' : depthAfter (due.length + (closers.length + 2)) t =
                due'.length + (closers.length + 2) := hdepth (closers.length + 1)
            have hlt : x.length < n := by
              simp only [← hn, List.length_append, List.length_cons]
              omega
            rw [hlength] at hnests
            obtain ⟨current', last', previous', hread⟩ :=
              ih x.length hlt hdue' hnests (extend (some current) ⟨some t, d :: a, i⟩ []) i
                (i + (a.length + 1)) (some t) rfl
            refine ⟨current', last', previous', ?_⟩
            rw [List.cons_append, List.append_assoc, tokensFrom_token (.inl (by omega)) hgap ht',
              hstep _ _ _ _ _ _ _ _ _ hcloser rfl, hlength', hread]
            congr 2
            simp [← hn]
            omega

theorem Legible.within {x : List Char} (h : Legible x) (hc : EndsToken c) (r : List Char) :
    Within x (c :: r) := by
  intro s head arguments current closer closers last i previous hcloser
  have hnone : ∀ k ∈ ([] : List Terminal), k.isCloser = true := by simp
  simpa using readTokens_of_nests (s := s) (r := r) hc hnone h head arguments current closers last i
    previous hcloser

end CssExtract.Script
