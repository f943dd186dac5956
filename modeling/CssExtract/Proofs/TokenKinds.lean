import CssExtract.Proofs.Balance
import CssExtract.Proofs.HeadNames

namespace CssExtract.Script

open Text

variable {a b r s u w : List Char} {c d q x : Char} {t k : Terminal} {i n pending : Nat} {F : List Frame}

structure EndsWord (x : Char) : Prop where
  name : isAsciiNamePart x = false
  number : EndsNumber x

theorem endsWord_slash : EndsWord '/' := ⟨by decide, by constructor <;> decide⟩

/-- What the tokens are that a text with `c` at its front can begin with, and how long they are. -/
inductive Starts (c : Char) (s : List Char) : Terminal → Nat → Prop
  | string {n : Nat} (hc : isQuote c = true) (h : stringTail? c s = some n) : Starts c s .string (n + 1)
  | template {n : Nat} (hc : c = '`') (h : templateTail? s = some n) : Starts c s .template (n + 1)
  | punctuation {t : Terminal} (h : punctuation? c = some t) : Starts c s t 1
  | word {t : Terminal} {n : Nat} (ht : t = .name ∨ t = .number)
      (h : ∀ x ∈ (c :: s).take n, ¬ EndsWord x) : Starts c s t n
  | operator {t : Terminal} {n : Nat} (ht : t = .arrow ∨ t = .operator)
      (h : ∀ x ∈ (c :: s).take n, isOperator x = true) : Starts c s t n

theorem isOrdinary_iff :
    isOrdinary c = true ↔ c ∉ ['\'', '"', '`', '(', '[', '{', ')', ']', '}'] := by
  have hopener : closerOf? c = none ↔ c ≠ '(' ∧ c ≠ '[' ∧ c ≠ '{' := by
    unfold closerOf?
    split <;> simp_all
  simp [isOrdinary, isQuote, isCloser, hopener, and_assoc]

theorem isOrdinary_of_isAsciiNamePart (h : isAsciiNamePart x = true) : isOrdinary x = true := by
  rw [isOrdinary_iff]
  intro hmem
  simp only [List.mem_cons, List.not_mem_nil, or_false] at hmem
  rcases hmem with rfl | rfl | rfl | rfl | rfl | rfl | rfl | rfl | rfl <;> exact absurd h (by decide)

theorem endsWord_of_not_ordinary (h : isOrdinary x = false) : EndsWord x where
  name := Bool.eq_false_iff.2 fun hname => by simp [isOrdinary_of_isAsciiNamePart hname] at h
  number := by
    have hmem : x ∈ ['\'', '"', '`', '(', '[', '{', ')', ']', '}'] := by
      by_contra hmem
      simp [isOrdinary_iff.2 hmem] at h
    simp only [List.mem_cons, List.not_mem_nil, or_false] at hmem
    rcases hmem with rfl | rfl | rfl | rfl | rfl | rfl | rfl | rfl | rfl <;> constructor <;> decide

theorem isOrdinary_of_not_endsWord (h : ¬ EndsWord x) : isOrdinary x = true := by
  by_contra hno
  exact h (endsWord_of_not_ordinary (by simpa using hno))

theorem isOrdinary_of_isOperator (h : isOperator x = true) : isOrdinary x = true := by
  rw [isOrdinary_iff]
  intro hmem
  simp only [List.mem_cons, List.not_mem_nil, or_false] at hmem
  rcases hmem with rfl | rfl | rfl | rfl | rfl | rfl | rfl | rfl | rfl <;> exact absurd h (by decide)

theorem isOrdinary_of_isGap (h : isGap x = true) : isOrdinary x = true := by
  rw [isOrdinary_iff]
  intro hmem
  simp only [List.mem_cons, List.not_mem_nil, or_false] at hmem
  rcases hmem with rfl | rfl | rfl | rfl | rfl | rfl | rfl | rfl | rfl <;> exact absurd h (by decide)

theorem not_endsWord_of_nameLength? (h : nameLength? isAsciiNamePart s = some n) :
    ∀ x ∈ s.take n, ¬ EndsWord x := by
  obtain ⟨a, r, rfl, rfl, ha, -⟩ := exists_name h
  rw [List.take_left]
  exact fun x hx hends => absurd ((ha.all x hx).symm.trans hends.name) (by decide)

theorem not_endsWord_of_numberLength? (h : numberLength? s = some n) :
    ∀ x ∈ s.take n, ¬ EndsWord x := by
  intro x hx hends
  obtain ⟨u, w, hsplit⟩ := List.append_of_mem hx
  have hs : s = u ++ x :: (w ++ s.drop n) := by
    rw [show u ++ x :: (w ++ s.drop n) = (u ++ x :: w) ++ s.drop n by simp, ← hsplit,
      List.take_append_drop]
  -- the number would end in front of the character
  rw [hs, numberLength?_barrier hends.number] at h
  have hle := numberLength?_le h
  have hlength := congrArg List.length hsplit
  simp only [List.length_take, List.length_append, List.length_cons] at hlength
  omega

theorem starts_of_terminal? (h : terminal? (c :: s) = some (t, n)) : Starts c s t n := by
  by_cases hquote : isQuote c = true
  · rw [terminal?_quote hquote] at h
    obtain ⟨k, hk, hsame⟩ := Option.map_eq_some_iff.1 h
    obtain ⟨rfl, rfl⟩ := Prod.mk.inj hsame
    exact .string hquote hk
  rw [Bool.not_eq_true] at hquote
  by_cases htick : c = '`'
  · subst htick
    rw [terminal?_tick] at h
    obtain ⟨k, hk, hsame⟩ := Option.map_eq_some_iff.1 h
    obtain ⟨rfl, rfl⟩ := Prod.mk.inj hsame
    exact .template rfl hk
  rw [terminal?_plain hquote htick] at h
  split_ifs at h with harrow hoperator
  · obtain ⟨rfl, hhead⟩ := harrow
    obtain ⟨s, rfl⟩ := List.head?_eq_some_iff.1 hhead
    obtain ⟨rfl, rfl⟩ := Prod.mk.inj (Option.some.inj h)
    exact .operator (.inl rfl) (by simp; decide)
  all_goals
    rcases Option.or_eq_some_iff.1 h with h | ⟨-, h⟩
    · obtain ⟨k, hk, hsame⟩ := Option.map_eq_some_iff.1 h
      obtain ⟨rfl, rfl⟩ := Prod.mk.inj hsame
      exact .word (.inl rfl) (not_endsWord_of_nameLength? hk)
    rcases Option.or_eq_some_iff.1 h with h | ⟨-, h⟩
    · obtain ⟨k, hk, hsame⟩ := Option.map_eq_some_iff.1 h
      obtain ⟨rfl, rfl⟩ := Prod.mk.inj hsame
      exact .word (.inr rfl) (not_endsWord_of_numberLength? hk)
  · obtain ⟨rfl, rfl⟩ := Prod.mk.inj (Option.some.inj h)
    refine .operator (.inr rfl) fun x hx => ?_
    have hfront := List.takeWhile_prefix isOperator (l := c :: s)
    rw [← List.prefix_iff_eq_take.1 hfront] at hx
    exact List.mem_takeWhile_imp hx
  · obtain ⟨k, hk, hsame⟩ := Option.map_eq_some_iff.1 h
    obtain ⟨rfl, rfl⟩ := Prod.mk.inj hsame
    exact .punctuation hk

theorem stringTail?_pos (h : stringTail? q s = some n) : 0 < n := by
  fun_induction stringTail? q s generalizing n with
  | case1 => simp at h
  | case2 => simp at h
  | case3 c s hc ih | case6 c s _ _ _ ih =>
      obtain ⟨k, hk, rfl⟩ := Option.map_eq_some_iff.1 h
      omega
  | case4 s => obtain rfl := Option.some.inj h; simp
  | case5 => simp at h

theorem stringTail?_of_append (hq : isQuote q = true) (h : stringTail? q (s ++ r) = some n)
    (hn : n ≤ s.length) : stringTail? q s = some n := by
  fun_induction stringTail? q s generalizing n with
  | case1 =>
      have := stringTail?_pos h
      simp at hn
      omega
  | case2 => simp [stringTail?] at h
  | case3 c s hc ih =>
      rw [List.cons_append, List.cons_append, stringTail?, if_neg hc] at h
      obtain ⟨k, hk, rfl⟩ := Option.map_eq_some_iff.1 h
      rw [ih hk (by simpa using hn), Option.map_some]
  | case4 s =>
      rw [List.cons_append, stringTail?_cons (ne_backslash_of_isQuote hq), if_pos rfl] at h
      exact h
  | case5 c s hescape hquote hplain =>
      by_cases hback : c = '\\'
      · -- the text ends in a backslash, after which the string goes on
        subst hback
        cases s with
        | cons d s => exact absurd rfl (hescape d s rfl)
        | nil =>
            cases r with
            | nil => simp [stringTail?, hquote] at h
            | cons d r =>
                rw [List.singleton_append, stringTail?] at h
                split_ifs at h
                obtain ⟨k, -, rfl⟩ := Option.map_eq_some_iff.1 h
                simp at hn
      · have hline : c = '\n' := by simpa [hback] using hplain
        rw [List.cons_append, stringTail?_cons hback, if_neg hquote, if_pos hline] at h
        simp at h
  | case6 c s hescape hquote hplain ih =>
      simp only [Bool.or_eq_true, decide_eq_true_eq, not_or] at hplain
      rw [List.cons_append, stringTail?_cons hplain.2, if_neg hquote, if_neg hplain.1] at h
      obtain ⟨k, hk, rfl⟩ := Option.map_eq_some_iff.1 h
      rw [ih hk (by simpa using hn), Option.map_some]

theorem templateTail?_pos (h : templateTail? s = some n) : 0 < n := by
  fun_induction templateTail? s generalizing n with
  | case1 => simp at h
  | case2 => simp at h
  | case3 c s hc ih | case6 c s _ _ _ ih =>
      obtain ⟨k, hk, rfl⟩ := Option.map_eq_some_iff.1 h
      omega
  | case4 s => obtain rfl := Option.some.inj h; simp
  | case5 => simp at h

theorem templateTail?_of_append (h : templateTail? (s ++ r) = some n) (hn : n ≤ s.length) :
    templateTail? s = some n := by
  fun_induction templateTail? s generalizing n with
  | case1 =>
      have := templateTail?_pos h
      simp at hn
      omega
  | case2 => simp [templateTail?] at h
  | case3 c s hc ih =>
      rw [List.cons_append, List.cons_append, templateTail?, if_neg hc] at h
      obtain ⟨k, hk, rfl⟩ := Option.map_eq_some_iff.1 h
      rw [ih hk (by simpa using hn), Option.map_some]
  | case4 s => simpa [templateTail?_cons] using h
  | case5 s hescape htick =>
      cases s with
      | cons d s => exact absurd rfl (hescape d s rfl)
      | nil =>
          cases r with
          | nil => simp [templateTail?] at h
          | cons d r =>
              rw [List.singleton_append, templateTail?] at h
              split_ifs at h
              obtain ⟨k, -, rfl⟩ := Option.map_eq_some_iff.1 h
              simp at hn
  | case6 c s hescape htick hback ih =>
      rw [List.cons_append, templateTail?_cons hback, if_neg htick] at h
      obtain ⟨k, hk, rfl⟩ := Option.map_eq_some_iff.1 h
      rw [ih hk (by simpa using hn), Option.map_some]

/-- A terminal that ends in front of a character that ends tokens is recognised without what
follows. -/
theorem terminal?_of_before (hx : EndsToken x) (hs : s ≠ []) (h : terminal? (s ++ x :: w) = some (t, n))
    (hn : n ≤ s.length) : terminal? s = some (t, n) := by
  cases s with
  | nil => exact absurd rfl hs
  | cons c s =>
      rw [List.cons_append] at h
      by_cases hquote : isQuote c = true
      · rw [terminal?_quote hquote] at h ⊢
        obtain ⟨k, hk, hsame⟩ := Option.map_eq_some_iff.1 h
        obtain ⟨rfl, rfl⟩ := Prod.mk.inj hsame
        rw [stringTail?_of_append hquote hk (by simpa using hn), Option.map_some]
      rw [Bool.not_eq_true] at hquote
      by_cases htick : c = '`'
      · subst htick
        rw [terminal?_tick] at h ⊢
        obtain ⟨k, hk, hsame⟩ := Option.map_eq_some_iff.1 h
        obtain ⟨rfl, rfl⟩ := Prod.mk.inj hsame
        rw [templateTail?_of_append hk (by simpa using hn), Option.map_some]
      have hhead : (s ++ x :: w).head? = some '>' ↔ s.head? = some '>' := by
        have hgreater : x ≠ '>' := by
          rintro rfl
          exact absurd hx.operator (by decide)
        cases s <;> simp [hgreater]
      have hname := nameLength?_before hx (List.cons_ne_nil c s) w
      have hnumber := numberLength?_barrier hx.number (c :: s) w
      have hoperator := takeWhile_barrier hx.operator (c :: s) w
      rw [List.cons_append] at hname hnumber hoperator
      rw [terminal?_plain hquote htick] at h ⊢
      simpa only [hhead, hname, hnumber, hoperator] using h

def isBare : Nat → List Char → Bool
  | _, [] => true
  | pending + 1, _ :: s => isBare pending s
  | 0, c :: s =>
    match stringLength? (c :: s) with
    | some n => isBare (n - 1) s
    | none => c ≠ '`' && !decide (OpensComment (c :: s)) && isBare 0 s
termination_by structural _ s => s

theorem isBare_pending : isBare pending s = isBare 0 (s.drop pending) := by
  induction pending generalizing s with
  | zero => rfl
  | succ pending ih =>
      cases s with
      | nil => simp [isBare]
      | cons c s => rw [isBare, ih, List.drop_succ_cons]

theorem isBare_plain (hc : isQuote c = false) :
    isBare 0 (c :: s) = true ↔ c ≠ '`' ∧ ¬ OpensComment (c :: s) ∧ isBare 0 s = true := by
  have hnone : stringLength? (c :: s) = none := by
    simp only [isQuote, Bool.or_eq_false_iff, decide_eq_false_iff_not] at hc
    simp [stringLength?, hc]
  rw [isBare, hnone]
  simp [and_assoc]

theorem isBare_string (hq : isQuote q = true) (h : stringTail? q (a ++ r) = some a.length) :
    isBare 0 (q :: (a ++ r)) = isBare 0 r := by
  have hstring : stringLength? (q :: (a ++ r)) = some (a.length + 1) := by
    simp only [isQuote, Bool.or_eq_true, decide_eq_true_eq] at hq
    rw [stringLength?, if_pos (by simpa [or_comm] using hq), h, Option.map_some]
  rw [isBare, hstring]
  simp only [Nat.add_sub_cancel]
  rw [isBare_pending, List.drop_left]

theorem isQuote_of_isOrdinary (h : isOrdinary c = true) : isQuote c = false := by
  simp only [isOrdinary, Bool.and_eq_true, Bool.not_eq_true'] at h
  exact h.1.1.1

theorem skip_bare (ha : ∀ x ∈ a, isOrdinary x = true) (h : isBare 0 (a ++ r) = true) :
    isBare 0 r = true ∧ ∀ (i : Nat) (closer : Char) (F : List Frame),
      skip i (.group closer :: F) (a ++ r) = skip (i + a.length) (.group closer :: F) r := by
  induction a with
  | nil => exact ⟨h, fun _ _ _ => rfl⟩
  | cons c a ih =>
      obtain ⟨hc, ha⟩ := List.forall_mem_cons.1 ha
      obtain ⟨-, hcomment, hrest⟩ := (isBare_plain (isQuote_of_isOrdinary hc)).1 h
      obtain ⟨hr, hskip⟩ := ih ha hrest
      refine ⟨hr, fun i closer F => ?_⟩
      rw [List.cons_append, skip_ordinary hc (by exact hcomment), hskip, List.length_cons, Nat.add_right_comm, Nat.add_assoc]

theorem stringText_of_stringTail? (h : stringTail? q s = some n) :
    ∃ a, s.take n = a ++ [q] ∧ StringText q a := by
  fun_induction stringTail? q s generalizing n with
  | case1 => simp at h
  | case2 => simp at h
  | case3 c s hc ih =>
      obtain ⟨k, hk, rfl⟩ := Option.map_eq_some_iff.1 h
      obtain ⟨a, ha, htext⟩ := ih hk
      exact ⟨'\\' :: c :: a, by simp [ha], .escaped c htext⟩
  | case4 s =>
      obtain rfl := Option.some.inj h
      exact ⟨[], by simp, .nil⟩
  | case5 => simp at h
  | case6 c s hescape hquote hplain ih =>
      simp only [Bool.or_eq_true, decide_eq_true_eq, not_or] at hplain
      obtain ⟨k, hk, rfl⟩ := Option.map_eq_some_iff.1 h
      obtain ⟨a, ha, htext⟩ := ih hk
      exact ⟨c :: a, by simp [ha], .char hquote hplain.2 hplain.1 htext⟩

theorem part_of_stringTail? (hq : isQuote q = true) (h : stringTail? q (a ++ r) = some a.length) :
    Part (q :: a) := by
  obtain ⟨b, hb, htext⟩ := stringText_of_stringTail? h
  rw [List.take_left] at hb
  rw [hb]
  exact (IsString.mk hq htext).part

def Terminal.frame : Terminal → Frame
  | .closeBracket => .group ']'
  | .closeBrace => .group '}'
  | _ => .group ')'

/-- What is due after a token, from what is due before it. -/
inductive Terminal.Turns (t : Terminal) : List Terminal → List Terminal → Prop
  | opens {k : Terminal} {due : List Terminal} (h : t.closer? = some k) : Turns t due (k :: due)
  | closes {due : List Terminal} (h : t.isCloser = true) : Turns t (t :: due) due
  | keeps {due : List Terminal} (hopen : t.closer? = none) (hclose : t.isCloser = false) : Turns t due due

theorem exists_frame (t : Terminal) : ∃ closer, t.frame = .group closer := by
  cases t <;> exact ⟨_, rfl⟩

theorem Terminal.closer?_of_isCloser (h : t.isCloser = true) : t.closer? = none := by
  cases t <;> first | rfl | simp [isCloser] at h

theorem Terminal.Turns.of_opens {due due' : List Terminal} (h : t.Turns due due')
    (hopen : t.closer? = some k) : due' = k :: due := by
  cases h with
  | opens h => rw [Option.some.inj (h.symm.trans hopen)]
  | closes h => simp [Terminal.closer?_of_isCloser h] at hopen
  | keeps h => simp [h] at hopen

theorem Terminal.Turns.of_closes {due due' : List Terminal} (h : t.Turns due due')
    (hclose : t.isCloser = true) : due = t :: due' := by
  cases h with
  | opens h => simp [Terminal.closer?_of_isCloser hclose] at h
  | closes => rfl
  | keeps _ h => simp [h] at hclose

theorem Terminal.Turns.of_plain {due due' : List Terminal} (h : t.Turns due due')
    (hopen : t.closer? = none) (hclose : t.isCloser = false) : due' = due := by
  cases h with
  | opens h => simp [hopen] at h
  | closes h => simp [hclose] at h
  | keeps => rfl

theorem closerOf?_of_isCloser (h : isCloser c = true) : closerOf? c = none := by
  simp only [isCloser, Bool.or_eq_true, decide_eq_true_eq] at h
  rcases h with (rfl | rfl) | rfl <;> rfl

theorem mem_of_bracket (h : (closerOf? c).isSome ∨ isCloser c = true) :
    c ∈ ['(', '[', '{', ')', ']', '}'] := by
  rcases h with h | h
  · simp only [closerOf?] at h
    split at h <;> simp_all
  · simpa [isCloser, or_assoc] using Or.inr (Or.inr (Or.inr h))

theorem opens?_of_bracket (h : (closerOf? c).isSome ∨ isCloser c = true) (i : Nat) (next : Option Char) :
    isQuote c = false ∧ opens? i c next = none := by
  have hmem := mem_of_bracket h
  simp only [List.mem_cons, List.not_mem_nil, or_false] at hmem
  rcases hmem with rfl | rfl | rfl | rfl | rfl | rfl <;> exact ⟨rfl, by simp [opens?]⟩

theorem punctuation_cases (h : punctuation? c = some t) :
    (∃ k closer, t.closer? = some k ∧ closerOf? c = some closer ∧ k.frame = .group closer) ∨
      (t.isCloser = true ∧ isCloser c = true ∧ t.frame = .group c) ∨
      (t.closer? = none ∧ t.isCloser = false ∧ isOrdinary c = true) := by
  simp only [punctuation?] at h
  split at h
  case h_9 => simp at h
  all_goals obtain rfl := Option.some.inj h
  case h_1 | h_8 => exact .inr (.inr ⟨rfl, rfl, by decide⟩)
  case h_2 | h_4 | h_6 => exact .inl ⟨_, _, rfl, rfl, rfl⟩
  all_goals exact .inr (.inl ⟨rfl, rfl, rfl⟩)

/-- A token turns the groups that are open to the scanner as it turns the brackets. -/
theorem skip_token {due due' : List Terminal}
    (ht : terminal? (c :: (a ++ r)) = some (t, a.length + 1)) (hbare : isBare 0 (c :: (a ++ r)) = true)
    (hturns : t.Turns due due') {closer : Char} {frames : List Frame}
    (hframes : due.map Terminal.frame ++ F = .group closer :: frames) :
    isBare 0 r = true ∧ ∀ i : Nat, skip i (due.map Terminal.frame ++ F) (c :: (a ++ r)) =
      skip (i + (a.length + 1)) (due'.map Terminal.frame ++ F) r := by
  -- tokens that open and close nothing
  have plain (ha : ∀ x ∈ c :: a, isOrdinary x = true) (hopen : t.closer? = none)
      (hclose : t.isCloser = false) : isBare 0 r = true ∧ ∀ i : Nat,
        skip i (due.map Terminal.frame ++ F) (c :: (a ++ r)) =
          skip (i + (a.length + 1)) (due'.map Terminal.frame ++ F) r := by
    obtain rfl := hturns.of_plain hopen hclose
    obtain ⟨hr, hskip⟩ := skip_bare ha hbare
    exact ⟨hr, fun i => by rw [hframes, ← List.cons_append, hskip, List.length_cons]⟩
  generalize hn : a.length + 1 = n at ht
  cases starts_of_terminal? ht with
  | string hc h =>
      obtain rfl := Nat.add_right_cancel hn
      obtain rfl := hturns.of_plain rfl rfl
      rw [isBare_string hc h] at hbare
      refine ⟨hbare, fun i => ?_⟩
      rw [hframes, ← List.cons_append, (part_of_stringTail? hc h).neutral, List.length_cons]
  | template hc =>
      subst hc
      exact absurd rfl ((isBare_plain rfl).1 hbare).1
  | punctuation h =>
      obtain rfl : a = [] := by simpa using hn
      rcases punctuation_cases h with ⟨k, inner, hopen, hinner, hk⟩ | ⟨hclose, hcloser, hframe⟩ |
        ⟨hopen, hclose, hc⟩
      · have hc := opens?_of_bracket (c := c) (.inl (by simp [hinner]))
        obtain rfl := hturns.of_opens hopen
        refine ⟨((isBare_plain (hc 0 none).1).1 hbare).2.2, fun i => ?_⟩
        rw [List.map_cons, List.cons_append, hk, hframes, skip_move (.groupNested hinner)]
        rfl
      · have hc := opens?_of_bracket (c := c) (.inr hcloser)
        obtain rfl := hturns.of_closes hclose
        refine ⟨((isBare_plain (hc 0 none).1).1 hbare).2.2, fun i => ?_⟩
        rw [List.map_cons, List.cons_append, hframe, skip_move (.groupEnd hcloser)]
        rfl
      · exact plain (by simpa using hc) hopen hclose
  | word ht' h =>
      rw [← hn, ← List.cons_append, ← List.length_cons, List.take_left] at h
      rw [← hn]
      have hword : ∀ x ∈ c :: a, isOrdinary x = true := fun x hx => isOrdinary_of_not_endsWord (h x hx)
      rcases ht' with rfl | rfl <;> exact plain hword rfl rfl
  | operator ht' h =>
      rw [← hn, ← List.cons_append, ← List.length_cons, List.take_left] at h
      rw [← hn]
      have hword : ∀ x ∈ c :: a, isOrdinary x = true := fun x hx => isOrdinary_of_isOperator (h x hx)
      rcases ht' with rfl | rfl <;> exact plain hword rfl rfl

end CssExtract.Script
