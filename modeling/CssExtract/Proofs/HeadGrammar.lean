import CssExtract.Proofs.Bindings
import CssExtract.Proofs.HeadAgreement
import CssExtract.Proofs.PrintedText
import CssExtract.Proofs.TemplatePieces

namespace CssExtract.Script

open Text

variable {a b g g' r s u x z : List Char} {c d : Char} {t : Terminal} {i last : Nat} {head result : Head}
  {previous : Option Terminal} {due due' : List Terminal} {items : List Item} {ops : List Op}
  {arguments given : List Argument} {current : Option OpenArgument}

/-- The token `c :: a` stands in front of a text, in an argument of which `due` is to be closed before
it and `due'` after it. -/
structure ArgumentToken (due due' : List Terminal) (t : Terminal) (c : Char) (a r : List Char) : Prop where
  gap : isGap c = false
  terminal : terminal? (c :: (a ++ r)) = some (t, a.length + 1)
  turns : t.Turns due due'
  comma : due = [] → t ≠ .comma

def itemsOf (due : List Terminal) (t : Terminal) (text : List Char) : List Item :=
  if due = [] then [if t.closer?.isSome then .group else .token t text] else []

/-- The rest of an argument, from a token to its last one. -/
inductive ArgumentText : List Terminal → List Char → List Item → Prop
  | last {due : List Terminal} {t : Terminal} {c : Char} {a : List Char} (h : ArgumentToken due [] t c a []) :
      ArgumentText due (c :: a) (itemsOf due t (c :: a))
  | more {due due' : List Terminal} {t : Terminal} {c : Char} {a g z : List Char} {items : List Item}
      (h : ArgumentToken due due' t c a (g ++ z)) (hg : ∀ c ∈ g, isGap c = true) :
      ArgumentText due' z items →
        ArgumentText due (c :: (a ++ (g ++ z))) (itemsOf due t (c :: a) ++ items)

inductive ArgumentList : List Char → List Argument → Prop
  | last {g z g' : List Char} {items : List Item} (hg : ∀ c ∈ g, isGap c = true)
      (h : ArgumentText [] z items) (hg' : ∀ c ∈ g', isGap c = true) :
      ArgumentList (g ++ (z ++ g')) [⟨String.ofList z, classify items⟩]
  | more {g z g' b : List Char} {items : List Item} {given : List Argument}
      (hg : ∀ c ∈ g, isGap c = true) (h : ArgumentText [] z items) (hg' : ∀ c ∈ g', isGap c = true) :
      ArgumentList b given →
        ArgumentList (g ++ (z ++ (g' ++ ',' :: b))) (⟨String.ofList z, classify items⟩ :: given)

inductive CallText : List Char → List Argument → Prop
  | empty {g : List Char} (hg : ∀ c ∈ g, isGap c = true) : CallText g []
  | given {b : List Char} {given : List Argument} (h : ArgumentList b given) : CallText b given

inductive OpsText : List Char → List Op → Prop
  | nil {g : List Char} (hg : ∀ c ∈ g, isGap c = true) : OpsText g []
  | member {g g' name r : List Char} {ops : List Op} (hg : ∀ c ∈ g, isGap c = true)
      (hg' : ∀ c ∈ g', isGap c = true) (hname : IsName name) :
      OpsText r ops → OpsText (g ++ '.' :: (g' ++ (name ++ r))) (.member (String.ofList name) :: ops)
  | call {g b r : List Char} {given : List Argument} {ops : List Op} (hg : ∀ c ∈ g, isGap c = true)
      (h : CallText b given) : OpsText r ops → OpsText (g ++ '(' :: (b ++ ')' :: r)) (.call given :: ops)

/-- A callee with at least one operation. -/
inductive HeadText : List Char → Head → Prop
  | mk {g name r : List Char} {ops : List Op} (hg : ∀ c ∈ g, isGap c = true) (hname : IsName name)
      (hops : OpsText r ops) (hne : ops ≠ []) : HeadText (g ++ (name ++ r)) ⟨String.ofList name, ops⟩

theorem endsToken_of_isGap (h : isGap c = true) : EndsToken c := by
  simp only [isGap, Bool.or_eq_true, decide_eq_true_eq] at h
  rcases h with (((rfl | rfl) | rfl) | rfl) | rfl <;> exact ⟨by decide, by constructor <;> decide, by decide⟩

theorem exists_endsToken (hg : ∀ c ∈ g, isGap c = true) (hd : EndsToken d) (r : List Char) :
    ∃ x u, g ++ d :: r = x :: u ∧ EndsToken x := by
  cases g with
  | nil => exact ⟨d, r, rfl, hd⟩
  | cons x g => exact ⟨x, _, rfl, endsToken_of_isGap (hg x List.mem_cons_self)⟩

theorem step?_argumentToken (h : ArgumentToken due due' t c a r) (hdue : ∀ k ∈ due, k.isCloser = true) (head : Head) (arguments : List Argument)
    (current : Option OpenArgument) (i : Nat) :
    HeadState.step? s (.call head arguments current due) ⟨some t, c :: a, i⟩ t =
      some (.call head arguments (some (extend current ⟨some t, c :: a, i⟩ (itemsOf due t (c :: a)))) due') := by
  have hcomma := h.comma
  cases h.turns with
  | opens hopen => cases due <;> cases t <;> cases current <;> simp_all [HeadState.step?, itemsOf, Terminal.closer?]
  | closes hclose =>
      simp [HeadState.step?, Terminal.closer?_of_isCloser hclose, itemsOf]
  | keeps hopen hclose =>
      cases due with
      | nil => cases t <;> cases current <;> simp_all [HeadState.step?, itemsOf, Terminal.closer?, Terminal.isCloser]
      | cons k due =>
          have hne : t ≠ k := by
            rintro rfl
            simp [hdue t List.mem_cons_self] at hclose
          simp [HeadState.step?, hopen, hne, hclose, itemsOf]

theorem extend_extend (current : Option OpenArgument) (t t' : Option Terminal) {y z w : List Char}
    {i j : Nat} (items items' : List Item) (h : j + z.length = i + w.length) :
    extend (some (extend current ⟨t, y, i⟩ items)) ⟨t', z, j⟩ items' =
      extend current ⟨none, w, i⟩ (items ++ items') := by
  cases current <;> simp [extend, Token.stop, h]

theorem ArgumentText.readTokens (h : ArgumentText due z items) (hdue : ∀ k ∈ due, k.isCloser = true)
    (hd : EndsToken d) (u : List Char) (s : List Char)
    (head : Head) (arguments : List Argument) (current : Option OpenArgument) (last i : Nat)
    (previous : Option Terminal) : ∃ last' previous',
      readTokens s (.call head arguments current due) last
          (tokensFrom i (due.length + 1) previous 0 (z ++ d :: u)) =
        readTokens s (.call head arguments (some (extend current ⟨none, z, i⟩ items)) []) last'
          (tokensFrom (i + z.length) 1 previous' 0 (d :: u)) := by
  induction h generalizing current last i previous with
  | @last due t c a h =>
      have ht := terminal?_before hd h.terminal u
      rw [List.append_nil] at ht
      refine ⟨i, some t, ?_⟩
      rw [List.cons_append] at ht ⊢
      rw [tokensFrom_token (.inl (by omega)) h.gap ht, h.turns.depth]
      simp only [Script.readTokens, step?_argumentToken h hdue]
      rfl
  | @more due due' t c a g z items h hg _ ih =>
      have ht := terminal?_before hd h.terminal u
      obtain ⟨last', previous', hrest⟩ := ih (h.turns.isCloser hdue)
        (some (extend current ⟨some t, c :: a, i⟩ (itemsOf due t (c :: a))))
        i (i + (a.length + 1) + g.length) (some t)
      refine ⟨last', previous', ?_⟩
      simp only [List.cons_append, List.append_assoc] at ht ⊢
      rw [tokensFrom_token (.inl (by omega)) h.gap ht, h.turns.depth]
      simp only [Script.readTokens, step?_argumentToken h hdue]
      rw [tokensFrom_gaps hg, hrest, extend_extend (w := c :: (a ++ (g ++ z)))]
      · congr 2
        simp
        omega
      · simp
        omega

theorem close_extend (hs : s.drop i = z ++ r) (items : List Item) :
    (extend none ⟨none, z, i⟩ items).close s = ⟨String.ofList z, classify items⟩ := by
  simp only [extend, OpenArgument.close, Token.stop, slice, hs, Nat.add_sub_cancel_left, List.take_left]

theorem readTokens_argument (hg : ∀ c ∈ g, isGap c = true) (h : ArgumentText [] z items)
    (hg' : ∀ c ∈ g', isGap c = true) (hd : EndsToken d) (hs : s.drop i = g ++ (z ++ (g' ++ d :: u)))
    (head : Head) (arguments : List Argument) (last : Nat) (previous : Option Terminal) :
    ∃ a last' previous', a.close s = ⟨String.ofList z, classify items⟩ ∧
      readTokens s (.call head arguments none []) last
          (tokensFrom i 1 previous 0 (g ++ (z ++ (g' ++ d :: u)))) =
        readTokens s (.call head arguments (some a) []) last'
          (tokensFrom (i + (g ++ (z ++ g')).length) 1 previous' 0 (d :: u)) := by
  obtain ⟨x, v, hx, hends⟩ := exists_endsToken hg' hd u
  obtain ⟨last', previous', hread⟩ :=
    h.readTokens (by simp) hends v s head arguments none last (i + g.length) previous
  refine ⟨_, last', previous', close_extend (drop_after hs) items, ?_⟩
  rw [tokensFrom_gaps hg, hx]
  refine hread.trans ?_
  rw [← hx, tokensFrom_gaps hg']
  congr 2
  simp
  omega

theorem readTokens_comma (a : OpenArgument) (s : List Char) (head : Head) (arguments : List Argument)
    (last i : Nat) (previous : Option Terminal) (u : List Char) :
    readTokens s (.call head arguments (some a) []) last (tokensFrom i 1 previous 0 (',' :: u)) =
      readTokens s (.call head (arguments ++ [a.close s]) none []) i (tokensFrom (i + 1) 1 (some .comma) 0 u) := by
  rw [tokensFrom_bracket rfl (by decide)]
  rfl

theorem readTokens_paren (a : OpenArgument) (s : List Char) (head : Head) (arguments : List Argument)
    (last i : Nat) (previous : Option Terminal) (u : List Char) :
    readTokens s (.call head arguments (some a) []) last (tokensFrom i 1 previous 0 (')' :: u)) =
      readTokens s (.chain ⟨head.callee, head.ops ++ [.call (arguments ++ [a.close s])]⟩) i
        (tokensFrom (i + 1) 0 (some .closeParen) 0 u) := by
  rw [tokensFrom_bracket rfl (by decide)]
  rfl

theorem ArgumentList.readTokens (h : ArgumentList b given) (hs : s.drop i = b ++ ')' :: u) (head : Head)
    (arguments : List Argument) (last : Nat) (previous : Option Terminal) : ∃ last',
      readTokens s (.call head arguments none []) last (tokensFrom i 1 previous 0 (b ++ ')' :: u)) =
        readTokens s (.chain ⟨head.callee, head.ops ++ [.call (arguments ++ given)]⟩) last'
          (tokensFrom (i + b.length + 1) 0 (some .closeParen) 0 u) := by
  induction h generalizing i arguments last previous with
  | @last g z g' items hg h hg' =>
      simp only [List.append_assoc] at hs ⊢
      obtain ⟨a, last', previous', hclose, hread⟩ :=
        readTokens_argument hg h hg' endsToken_paren hs head arguments last previous
      exact ⟨_, by rw [hread, readTokens_paren, hclose]⟩
  | @more g z g' b items given hg h hg' _ ih =>
      simp only [List.append_assoc, List.cons_append] at hs ⊢
      obtain ⟨a, last', previous', hclose, hread⟩ :=
        readTokens_argument hg h hg' endsToken_comma hs head arguments last previous
      have hrest : s.drop (i + (g ++ (z ++ g')).length + 1) = b ++ ')' :: u := by
        have hsplit : s.drop i = (g ++ (z ++ (g' ++ [',']))) ++ (b ++ ')' :: u) := by simpa using hs
        simpa [Nat.add_assoc] using drop_after hsplit
      obtain ⟨last'', hlater⟩ := ih hrest (arguments ++ [⟨String.ofList z, classify items⟩])
        (i + (g ++ (z ++ g')).length) (some .comma)
      refine ⟨last'', ?_⟩
      rw [hread, readTokens_comma, hclose, hlater, List.append_assoc]
      congr 2
      simp
      omega

theorem CallText.readTokens (h : CallText b given) (hs : s.drop i = '(' :: (b ++ ')' :: u)) (head : Head)
    (last : Nat) (previous : Option Terminal) : ∃ last',
      readTokens s (.chain head) last (tokensFrom i 0 previous 0 ('(' :: (b ++ ')' :: u))) =
        readTokens s (.chain ⟨head.callee, head.ops ++ [.call given]⟩) last'
          (tokensFrom (i + ('(' :: (b ++ [')'])).length) 0 (some .closeParen) 0 u) := by
  have hinner : s.drop (i + 1) = b ++ ')' :: u := drop_after (a := ['(']) hs
  have hlength : i + ('(' :: (b ++ [')'])).length = i + 1 + b.length + 1 := by
    simp
    omega
  rw [tokensFrom_bracket rfl (by decide), hlength]
  simp only [Script.readTokens, HeadState.step?]
  cases h with
  | empty hg =>
      rw [tokensFrom_gaps hg, tokensFrom_bracket rfl (by decide)]
      exact ⟨_, rfl⟩
  | given h => exact h.readTokens hinner head [] i (some .openParen)

theorem OpsText.ends (h : OpsText r ops) : Ends r.head? := by
  have hgap {g : List Char} {d : Char} (hg : ∀ c ∈ g, isGap c = true) (hd : isAsciiNamePart d = false)
      (r : List Char) : Ends (g ++ d :: r).head? := by
    cases g with
    | nil => exact hd
    | cons c g => exact (endsToken_of_isGap (hg c List.mem_cons_self)).name
  cases h with
  | nil hg =>
      cases r with
      | nil => rfl
      | cons c r => exact (endsToken_of_isGap (hg c List.mem_cons_self)).name
  | member hg => exact hgap hg (by decide) _
  | call hg => exact hgap hg (by decide) _

theorem OpsText.readTokens (h : OpsText r ops) (hs : s.drop i = r) (head : Head) (last : Nat) (ht : t ≠ .dot) :
    ∃ last', readTokens s (.chain head) last (tokensFrom i 0 (some t) 0 r) =
      readTokens s (.chain ⟨head.callee, head.ops ++ ops⟩) last' [] := by
  induction h generalizing i head last t with
  | nil hg =>
      refine ⟨last, ?_⟩
      have hnone : tokensFrom i 0 (some t) 0 _ = [] := tokensFrom_gaps (s := []) hg i 0
      rw [List.append_nil] at hnone
      rw [hnone, List.append_nil]
  | @member g g' name r ops hg hg' hname h ih =>
      have hsplit : s.drop i = (g ++ '.' :: (g' ++ name)) ++ r := by simpa using hs
      obtain ⟨last', hread⟩ := ih (drop_after hsplit)
        ⟨head.callee, head.ops ++ [.member (String.ofList name)]⟩ (i + g.length + 1 + g'.length) (t := .name) (by decide)
      refine ⟨last', ?_⟩
      rw [tokensFrom_gaps hg, readTokens_member s head _ last ht hg' hname h.ends]
      rw [show i + g.length + ('.' :: (g' ++ name)).length = i + (g ++ '.' :: (g' ++ name)).length by simp; omega,
        hread]
      simp
  | @call g b r given ops hg h _ ih =>
      have hsplit : s.drop i = (g ++ '(' :: (b ++ [')'])) ++ r := by simpa using hs
      obtain ⟨last', hcall⟩ := h.readTokens (drop_after hs) head last (some t)
      obtain ⟨last'', hread⟩ := ih (drop_after hsplit)
        ⟨head.callee, head.ops ++ [.call given]⟩ last' (t := .closeParen) (by decide)
      refine ⟨last'', ?_⟩
      rw [tokensFrom_gaps hg, hcall]
      rw [show i + g.length + ('(' :: (b ++ [')'])).length = i + (g ++ '(' :: (b ++ [')'])).length by simp; omega,
        hread]
      simp

theorem HeadState.Steps.argument_cases {token : Token} {state : HeadState}
    (hstep : HeadState.Steps s token t (.call head arguments current due) state)
    (hdue : ∀ k ∈ due, k.isCloser = true) :
    (due = [] ∧ (t = .closeParen ∨ t = .comma)) ∨ ((due = [] → t ≠ .comma) ∧ ∃ due', t.Turns due due' ∧
      state = .call head arguments (some (extend current token (itemsOf due t token.text))) due') := by
  cases hstep with
  | last _ _ a ht | empty _ ht => exact .inl ⟨rfl, .inl ht⟩
  | comma _ _ a ht => exact .inl ⟨rfl, .inr ht⟩
  | group _ _ _ closer ht =>
      refine .inr ⟨?_, _, .opens ht, by simp [itemsOf, ht]⟩
      rintro - rfl
      simp [Terminal.closer?] at ht
  | item _ _ _ ht hclose =>
      by_cases hcomma : t = .comma
      · exact .inl ⟨rfl, .inr hcomma⟩
      · exact .inr ⟨fun _ => hcomma, _, .keeps ht hclose, by simp [itemsOf, ht]⟩
  | opens _ _ _ inner closer closers ht => exact .inr ⟨by simp, _, .opens ht, by simp [itemsOf]⟩
  | closes _ _ _ closer closers ht =>
      subst ht
      exact .inr ⟨by simp, _, .closes (hdue t List.mem_cons_self), by simp [itemsOf]⟩
  | inside _ _ _ closer closers ht hclose => exact .inr ⟨by simp, _, .keeps ht hclose, by simp [itemsOf]⟩

theorem endsToken_of_delimiter (h : d = ',' ∨ d = ')') : EndsToken d := by
  rcases h with rfl | rfl
  · exact endsToken_comma
  · exact endsToken_paren

theorem exists_argumentToken (hdue : ∀ k ∈ due, k.isCloser = true) (hgap : isGap c = false)
    (hfirst : due = [] → c ≠ ',' ∧ c ≠ ')')
    (h : readTokens s (.call head arguments current due) last (tokensFrom i (due.length + 1) previous 0 (c :: r)) =
      .ok result) :
    ∃ t due' a g d u, r = a ++ (g ++ d :: u) ∧ (∀ c ∈ g, isGap c = true) ∧ isGap d = false ∧
      t.Turns due due' ∧
      (∀ {z x v}, EndsToken x → g ++ d :: u = z ++ x :: v → ArgumentToken due due' t c a z) ∧
      ∃ current j, readTokens s (.call head arguments current due') i
        (tokensFrom j (due'.length + 1) (some t) 0 (d :: u)) = .ok result := by
  cases ht : terminal? (c :: r) with
  | none =>
      rw [tokensFrom, hgap] at h
      simp [tokenAt, ht, Script.readTokens] at h
  | some found =>
      obtain ⟨t, m⟩ := found
      obtain ⟨a, r, rfl, rfl⟩ := exists_cons_of_terminal? ht
      rw [tokensFrom_token (.inl (by omega)) hgap ht] at h
      simp only [Script.readTokens] at h
      cases hstep : HeadState.step? s (.call head arguments current due) ⟨some t, c :: a, i⟩ t with
      | none => simp [hstep] at h
      | some state =>
          rw [hstep] at h
          dsimp only at h
          obtain ⟨hnil, hend⟩ | ⟨hcomma, due', hturns, rfl⟩ :=
            (HeadState.steps_of_step? hstep).argument_cases hdue
          · exfalso
            rcases hend with rfl | rfl
            · exact (hfirst hnil).2 (eq_of_terminal?_punctuation ht rfl).1
            · exact (hfirst hnil).1 (eq_of_terminal?_punctuation ht rfl).1
          · obtain ⟨g, r, rfl, hg, hr⟩ := exists_gaps r
            rw [hturns.depth, tokensFrom_gaps hg] at h
            cases r with
            | nil => simp [tokensFrom, Script.readTokens] at h
            | cons d u =>
                refine ⟨t, due', a, g, d, u, rfl, hg, hr d rfl, hturns, ?_, _, _, h⟩
                intro z x v hx hsplit
                refine ⟨hgap, ?_, hturns, hcomma⟩
                -- the token is the same without what follows the argument
                rw [hsplit, ← List.append_assoc, ← List.cons_append] at ht
                exact terminal?_of_before hx (by simp) ht (by simp)

/-- An argument that is read to its end is one of the grammar. -/
theorem exists_argumentText (hdue : ∀ k ∈ due, k.isCloser = true) (hgap : isGap c = false)
    (hfirst : due = [] → c ≠ ',' ∧ c ≠ ')')
    (h : readTokens s (.call head arguments current due) last (tokensFrom i (due.length + 1) previous 0 (c :: r)) =
      .ok result) :
    ∃ z items g d u, c :: r = z ++ (g ++ d :: u) ∧ ArgumentText due z items ∧ (∀ c ∈ g, isGap c = true) ∧
      (d = ',' ∨ d = ')') := by
  induction hn : r.length using Nat.strongRecOn generalizing c r due current last i previous with
  | _ n ih =>
    obtain ⟨t, due', a, g, d, r, rfl, hg, hd, hturns, htoken, current', j, hrest⟩ :=
      exists_argumentToken hdue hgap hfirst h
    by_cases hlast : due' = [] ∧ (d = ',' ∨ d = ')')
    · obtain ⟨rfl, hdelimiter⟩ := hlast
      obtain ⟨x, u, hx, hends⟩ := exists_endsToken hg (endsToken_of_delimiter hdelimiter) r
      exact ⟨c :: a, _, g, d, r, rfl, .last (htoken hends hx), hg, hdelimiter⟩
    · have hfirst' : due' = [] → d ≠ ',' ∧ d ≠ ')' := by
        rintro rfl
        simpa using hlast
      obtain ⟨z, items, g', e, u, hsplit, hz, hg', he⟩ :=
        ih r.length (by simp [← hn]; omega) (hturns.isCloser hdue) hd hfirst' hrest rfl
      obtain ⟨x, v, hx, hends⟩ := exists_endsToken hg' (endsToken_of_delimiter he) u
      have hall : g ++ d :: r = (g ++ z) ++ x :: v := by rw [hsplit, hx, List.append_assoc]
      exact ⟨c :: (a ++ (g ++ z)), _, g', e, u, by rw [hsplit]; simp, .more (htoken hends hall) hg hz, hg', he⟩

theorem exists_arguments (hs : s.drop i = r)
    (h : readTokens s (.call head arguments none []) last (tokensFrom i 1 previous 0 r) = .ok result) :
    ∃ b u, r = b ++ ')' :: u ∧
      ((arguments = [] ∧ ∀ c ∈ b, isGap c = true) ∨ ∃ given, ArgumentList b given) := by
  induction hn : r.length using Nat.strongRecOn generalizing r i arguments last previous with
  | _ n ih =>
    obtain ⟨g, r, rfl, hg, hr⟩ := exists_gaps r
    have h' := h
    rw [tokensFrom_gaps hg] at h
    cases r with
    | nil => simp [tokensFrom, readTokens] at h
    | cons c r =>
        by_cases hparen : c = ')'
        · subst hparen
          refine ⟨g, r, rfl, .inl ⟨?_, hg⟩⟩
          rw [tokensFrom_bracket rfl (by decide)] at h
          simp only [readTokens, HeadState.step?] at h
          by_contra hne
          simp [hne] at h
        · have hcomma : c ≠ ',' := by
            rintro rfl
            rw [tokensFrom_bracket rfl (by decide)] at h
            simp [readTokens, HeadState.step?] at h
          obtain ⟨z, items, g', d, u, hsplit, hz, hg', hd⟩ :=
            exists_argumentText (by simp) (hr c rfl) (fun _ => ⟨hcomma, hparen⟩) h
          rw [hsplit] at h' hs hn ⊢
          rcases hd with rfl | rfl
          · obtain ⟨a, last', previous', -, hread⟩ :=
              readTokens_argument hg hz hg' endsToken_comma hs head arguments last previous
            rw [hread, readTokens_comma] at h'
            have hrest : s.drop (i + (g ++ (z ++ g')).length + 1) = u := by
              have hall : s.drop i = (g ++ (z ++ (g' ++ [',']))) ++ u := by simpa using hs
              simpa [Nat.add_assoc] using drop_after hall
            obtain ⟨b, v, rfl, hb⟩ := ih u.length (by simp [← hn]; omega) hrest h' rfl
            obtain ⟨given, hb⟩ := hb.resolve_left (by simp)
            exact ⟨g ++ (z ++ (g' ++ ',' :: b)), v, by simp, .inr ⟨_, .more hg hz hg' hb⟩⟩
          · exact ⟨g ++ (z ++ g'), u, by simp, .inr ⟨_, .last hg hz hg'⟩⟩

theorem exists_opsText (hs : s.drop i = r) (ht : t ≠ .dot)
    (h : readTokens s (.chain head) last (tokensFrom i 0 (some t) 0 r) = .ok result) :
    ∃ ops, OpsText r ops := by
  induction hn : r.length using Nat.strongRecOn generalizing r i head last t with
  | _ n ih =>
    obtain ⟨g, r, rfl, hg, hr⟩ := exists_gaps r
    rw [tokensFrom_gaps hg] at h
    cases r with
    | nil => exact ⟨[], .nil (by simpa using hg)⟩
    | cons c r =>
        have hc := hr c rfl
        have hop := drop_after hs
        rcases chain_cases ht hc h with rfl | rfl
        · have hmember := h
          rw [tokensFrom_point ht] at hmember
          simp only [readTokens, HeadState.step?] at hmember
          obtain ⟨g', name, r, rfl, hg', hname, hends⟩ :=
            exists_name_of_readTokens (by simp) (.inr ⟨head, rfl⟩) hmember
          rw [readTokens_member _ _ _ _ ht hg' hname hends] at h
          have hrest : s.drop (i + g.length + ('.' :: (g' ++ name)).length) = r :=
            drop_after (a := '.' :: (g' ++ name)) (by simpa using hop)
          obtain ⟨ops, hops⟩ := ih r.length (by simp [← hn]; omega) hrest (by decide) h rfl
          exact ⟨_, .member hg hg' hname hops⟩
        · have hcall := h
          rw [tokensFrom_bracket rfl (by decide)] at hcall
          simp only [readTokens, HeadState.step?] at hcall
          obtain ⟨b, u, rfl, hb⟩ := exists_arguments (drop_after (a := ['(']) hop) hcall
          obtain ⟨given, hb⟩ : ∃ given, CallText b given := by
            rcases hb with ⟨-, hb⟩ | ⟨given, hb⟩
            · exact ⟨[], .empty hb⟩
            · exact ⟨given, .given hb⟩
          obtain ⟨last', hread⟩ := hb.readTokens hop head last (some t)
          rw [hread] at h
          have hrest : s.drop (i + g.length + ('(' :: (b ++ [')'])).length) = u :=
            drop_after (a := '(' :: (b ++ [')'])) (by simpa using hop)
          obtain ⟨ops, hops⟩ := ih u.length (by simp [← hn]; omega) hrest (by decide) h rfl
          exact ⟨_, .call hg hb hops⟩

theorem readHeadText_of_opsText {name : List Char} (hg : ∀ c ∈ g, isGap c = true) (hname : IsName name)
    (h : OpsText r ops) : ∃ e, readHeadText (g ++ (name ++ r)) =
      if ops.isEmpty then .error e else .ok ⟨String.ofList name, ops⟩ := by
  have hdrop : (g ++ (name ++ r)).drop (g.length + name.length) = r := by
    rw [← List.drop_drop, List.drop_left, List.drop_left]
  obtain ⟨last', hread⟩ := h.readTokens hdrop ⟨String.ofList name, []⟩ (0 + g.length) (t := .name) (by decide)
  refine ⟨headError (g ++ (name ++ r)) (.unexpected none) last', ?_⟩
  rw [readHeadText, Script.tokens, tokensFrom_gaps hg, tokensFrom_name hname h.ends]
  simp only [readTokens, HeadState.step?, if_true]
  rw [Nat.zero_add] at hread ⊢
  exact hread

theorem readHeadText_eq_ok_iff : readHeadText s = .ok head ↔ HeadText s head := by
  constructor
  · intro h
    obtain ⟨g, name, r, rfl, hg, hname, hr⟩ := exists_name_of_readTokens (i := 0) Option.any_none (.inl rfl) h
    have hchain := h
    rw [readHeadText, Script.tokens, tokensFrom_gaps hg, tokensFrom_name hname hr] at hchain
    simp only [readTokens, HeadState.step?, if_true, Nat.zero_add] at hchain
    have hdrop : (g ++ (name ++ r)).drop (g.length + name.length) = r := by
      rw [← List.drop_drop, List.drop_left, List.drop_left]
    obtain ⟨ops, hops⟩ := exists_opsText hdrop (by decide) hchain
    obtain ⟨e, hread⟩ := readHeadText_of_opsText hg hname hops
    rw [hread] at h
    split_ifs at h with hne
    obtain rfl := Except.ok.inj h
    exact .mk hg hname hops (by simpa using hne)
  · rintro ⟨hg, hname, hops, hne⟩
    obtain ⟨e, hread⟩ := readHeadText_of_opsText hg hname hops
    rw [hread, if_neg (by simpa using hne)]

def Op.render : Op → List Char
  | .member name => '.' :: name.toList
  | .call arguments => '(' :: ([',', ' '].intercalate (arguments.map (·.source.toList)) ++ [')'])

def Head.render (head : Head) : List Char := head.callee.toList ++ head.ops.flatMap Op.render

theorem ArgumentList.gap (hc : isGap c = true) (h : ArgumentList b given) : ArgumentList (c :: b) given := by
  cases h with
  | @last g z g' items hg h hg' =>
      rw [← List.cons_append]
      exact .last (List.forall_mem_cons.2 ⟨hc, hg⟩) h hg'
  | @more g z g' b items given hg h hg' hb =>
      rw [← List.cons_append]
      exact .more (List.forall_mem_cons.2 ⟨hc, hg⟩) h hg' hb

theorem ArgumentList.render (h : ArgumentList b given) :
    ArgumentList ([',', ' '].intercalate (given.map (·.source.toList))) given := by
  have hnone : ∀ c ∈ ([] : List Char), isGap c = true := by simp
  induction h with
  | @last g z g' items hg h hg' => simpa using ArgumentList.last hnone h hnone
  | @more g z g' b items given hg h hg' hb ih =>
      have hmore := ArgumentList.more hnone h hnone (ih.gap (c := ' ') (by decide))
      cases hb <;> simpa [List.intercalate_cons_cons] using hmore

theorem OpsText.render (h : OpsText r ops) : OpsText (ops.flatMap Op.render) ops := by
  have hnone : ∀ c ∈ ([] : List Char), isGap c = true := by simp
  induction h with
  | nil => exact .nil hnone
  | member hg hg' hname _ ih => simpa [Op.render] using OpsText.member hnone hnone hname ih
  | @call g b r given ops hg h _ ih =>
      have htext : CallText ([',', ' '].intercalate (given.map (·.source.toList))) given := by
        cases h with
        | empty => exact .empty hnone
        | given h => exact .given h.render
      simpa [Op.render] using OpsText.call hnone htext ih

theorem HeadText.render (h : HeadText s head) : HeadText head.render head := by
  cases h with
  | mk hg hname hops hne => simpa [Head.render] using HeadText.mk (g := []) (by simp) hname hops.render hne

/-- The texts stand in the text one after the other, none of them in another. -/
inductive InOrder : List (List Char) → List Char → Prop
  | nil (s : List Char) : InOrder [] s
  | cons {x r : List Char} {xs : List (List Char)} (a : List Char) :
      InOrder xs r → InOrder (x :: xs) (a ++ (x ++ r))

theorem InOrder.after {xs : List (List Char)} (a : List Char) (h : InOrder xs s) : InOrder xs (a ++ s) := by
  cases h with
  | nil => exact .nil _
  | @cons x r xs b h =>
      rw [← List.append_assoc]
      exact .cons (a ++ b) h

theorem InOrder.append {xs ys : List (List Char)} (h : InOrder xs a) (h' : InOrder ys b) :
    InOrder (xs ++ ys) (a ++ b) := by
  induction h with
  | nil s => exact h'.after s
  | cons a _ ih =>
      simp only [List.append_assoc, List.cons_append]
      exact .cons a ih

def Op.sources : Op → List (List Char)
  | .member _ => []
  | .call arguments => arguments.map (·.source.toList)

def Head.sources (head : Head) : List (List Char) := head.ops.flatMap Op.sources

theorem ArgumentList.inOrder (h : ArgumentList b given) : InOrder (given.map (·.source.toList)) b := by
  induction h with
  | @last g z g' => simpa using InOrder.cons (x := z) g (.nil g')
  | @more g z g' b items given _ _ _ _ ih =>
      simpa using InOrder.cons (x := z) g ((ih.after [',']).after g')

theorem OpsText.inOrder (h : OpsText r ops) : InOrder (ops.flatMap Op.sources) r := by
  induction h with
  | nil => exact .nil _
  | @member g g' name r ops _ _ _ _ ih => simpa [Op.sources] using ih.after (g ++ '.' :: (g' ++ name))
  | @call g b r given ops _ h _ ih =>
      have hb : InOrder (given.map (·.source.toList)) b := by
        cases h with
        | empty => exact .nil _
        | given h => exact h.inOrder
      have hall := (hb.append (ih.after [')'])).after (g ++ ['('])
      simpa [Op.sources] using hall

theorem HeadText.inOrder (h : HeadText s head) : InOrder head.sources s := by
  cases h with
  | @mk g name r ops hg hname hops hne => exact (hops.inOrder.after name).after g

def Unpadded (z : List Char) : Prop :=
  ∃ c d, z.head? = some c ∧ z.getLast? = some d ∧ isBlank c = false ∧ isBlank d = false

theorem endsWord_of_isBlank (h : isBlank c = true) : EndsWord c where
  name := by
    rw [Bool.eq_false_iff]
    exact fun hname => by simp [not_isBlank_of_isAsciiNamePart hname] at h
  number := {
    digit := by
      rw [Bool.eq_false_iff]
      exact fun hdigit => by simp [isBlank_of_isDigit hdigit] at h
    point := by
      rintro rfl
      exact absurd h (by decide)
    exponent := by constructor <;> rintro rfl <;> exact absurd h (by decide)
    sign := by constructor <;> rintro rfl <;> exact absurd h (by decide) }

theorem getLast?_of_templateTail? {n : Nat} (h : templateTail? s = some n) : (s.take n).getLast? = some '`' := by
  fun_induction templateTail? s generalizing n with
  | case1 => simp at h
  | case2 => simp at h
  | case3 c s hc ih | case6 c s _ _ _ ih =>
      obtain ⟨k, hk, rfl⟩ := Option.map_eq_some_iff.1 h
      simp [List.getLast?_cons, ih hk]
  | case4 s =>
      obtain rfl := Option.some.inj h
      simp
  | case5 => simp at h

theorem not_isBlank_of_isOperator (h : isOperator c = true) : isBlank c = false := by
  have hall : "-+*/%<>=!&|?:~^;".toList.all (!isBlank ·) = true := by decide +kernel
  simpa using List.all_eq_true.1 hall c (by simpa [isOperator] using h)

theorem not_isBlank_of_punctuation? (h : punctuation? c = some t) : isBlank c = false := by
  unfold punctuation? at h
  split at h <;> first | decide | simp at h

theorem unpadded_of_terminal? (h : terminal? (c :: (a ++ r)) = some (t, a.length + 1)) : Unpadded (c :: a) := by
  -- a token that has no blank at all
  have solid (h : ∀ x ∈ c :: a, isBlank x = false) : Unpadded (c :: a) :=
    ⟨c, _, rfl, List.getLast?_eq_some_getLast (List.cons_ne_nil c a), h c List.mem_cons_self,
      h _ (List.getLast_mem _)⟩
  have htake : (c :: (a ++ r)).take (a.length + 1) = c :: a := by rw [List.take_succ_cons, List.take_left]
  generalize hn : a.length + 1 = n at h htake
  cases starts_of_terminal? h with
  | @string k hc htail =>
      obtain rfl : a.length = k := Nat.succ.inj hn
      obtain ⟨b, hb, -⟩ := stringText_of_stringTail? htail
      rw [List.take_left] at hb
      have hblank : isBlank c = false := Bool.eq_false_iff.2 fun hblank => by
        simp [isQuote_of_isBlank hblank] at hc
      exact ⟨c, c, rfl, by simp [hb, List.getLast?_cons], hblank, hblank⟩
  | @template k hc htail =>
      obtain rfl : a.length = k := Nat.succ.inj hn
      have hlast := getLast?_of_templateTail? htail
      rw [List.take_left] at hlast
      exact ⟨c, '`', rfl, by simp [hlast, List.getLast?_cons], by rw [hc]; decide, by decide⟩
  | punctuation hc =>
      obtain rfl : a = [] := List.eq_nil_of_length_eq_zero (Nat.succ.inj hn)
      exact solid (by simpa using not_isBlank_of_punctuation? hc)
  | word ht hall =>
      rw [htake] at hall
      exact solid fun x hx => Bool.eq_false_iff.2 fun hblank => hall x hx (endsWord_of_isBlank hblank)
  | operator ht hall =>
      rw [htake] at hall
      exact solid fun x hx => not_isBlank_of_isOperator (hall x hx)

theorem ArgumentText.unpadded (h : ArgumentText due z items) : Unpadded z := by
  induction h with
  | last h => exact unpadded_of_terminal? h.terminal
  | @more due due' t c a g z items h hg _ ih =>
      obtain ⟨c, -, hc, -, hblank, -⟩ := unpadded_of_terminal? h.terminal
      obtain ⟨-, d, -, hd, -, hblank'⟩ := ih
      refine ⟨c, d, hc, ?_, hblank, hblank'⟩
      rw [← List.append_assoc, ← List.cons_append, List.getLast?_append, hd]
      rfl

theorem ArgumentList.unpadded (h : ArgumentList b given) : ∀ x ∈ given, Unpadded x.source.toList := by
  induction h with
  | last hg h hg' => simpa using h.unpadded
  | more hg h hg' _ ih => exact List.forall_mem_cons.2 ⟨by simpa using h.unpadded, ih⟩

theorem OpsText.unpadded (h : OpsText r ops) : ∀ z ∈ ops.flatMap Op.sources, Unpadded z := by
  induction h with
  | nil => simp
  | member _ _ _ _ ih => simpa [Op.sources] using ih
  | call hg h _ ih =>
      rw [List.flatMap_cons, List.forall_mem_append]
      refine ⟨fun z hz => ?_, ih⟩
      obtain ⟨x, hx, rfl⟩ := List.mem_map.1 hz
      cases h with
      | empty => simp at hx
      | given h => exact h.unpadded x hx

/-- A head that is written out again is read as the same head. The sources of its arguments stand in the
text that it was read from, one after the other, with no blank at an end. -/
theorem readHeadText_render (h : readHeadText s = .ok head) : readHeadText head.render = .ok head ∧
    InOrder head.sources s ∧ ∀ z ∈ head.sources, Unpadded z := by
  have htext := readHeadText_eq_ok_iff.1 h
  refine ⟨readHeadText_eq_ok_iff.2 htext.render, htext.inOrder, ?_⟩
  cases htext with
  | mk hg hname hops hne => exact hops.unpadded

def spacedHead : List Char := " ui\t. b( f(a , [1,2]) ,'x, (y)',\n (p, q) =>\x7b \x7d )\n( )( `, $\x7bz\x7d`) ".toList

theorem spacedHead_render : ∃ head, readHeadText spacedHead = .ok head ∧
    head.render = "ui.b(f(a , [1,2]), 'x, (y)', (p, q) =>\x7b \x7d)()(`, $\x7bz\x7d`)".toList ∧
    readHeadText head.render = .ok head := by
  have hrender : (readHeadText spacedHead).toOption.map Head.render =
      some "ui.b(f(a , [1,2]), 'x, (y)', (p, q) =>\x7b \x7d)()(`, $\x7bz\x7d`)".toList := by decide +kernel
  obtain ⟨head, hread, hrender⟩ := Option.map_eq_some_iff.1 hrender
  cases h : readHeadText spacedHead with
  | error e => simp [h, Except.toOption] at hread
  | ok head' =>
      obtain rfl : head' = head := by simpa [h, Except.toOption] using hread
      exact ⟨head', rfl, hrender, (readHeadText_render h).1⟩

end CssExtract.Script
