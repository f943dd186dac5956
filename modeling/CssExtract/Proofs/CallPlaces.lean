import CssExtract.Proofs.ScanShift
import CssExtract.Proofs.TokenKinds

namespace CssExtract.Script

open Text

variable {a b p r s w : List Char} {c d : Char} {t : Terminal} {i n : Nat} {head : Head}
  {previous : Option Terminal}

def OpenArgument.shift (d : Nat) (a : OpenArgument) : OpenArgument := { a with span := a.span.shift d }

def HeadState.place (head : Head) (d : Nat) : HeadState → HeadState
  | .start => .start
  | .chain h => .chain ⟨head.callee, head.ops ++ h.ops⟩
  | .member h => .member ⟨head.callee, head.ops ++ h.ops⟩
  | .call h arguments current closers =>
    .call ⟨head.callee, head.ops ++ h.ops⟩ arguments (current.map (·.shift d)) closers

def HeadState.Before (n : Nat) : HeadState → Prop
  | .call _ _ (some a) _ => a.span.stop ≤ n
  | _ => True

theorem close_shift {a : OpenArgument} (h : a.span.stop ≤ w.length) (p r : List Char) :
    (a.shift p.length).close (p ++ (w ++ r)) = a.close w := by
  have hslice : slice (p ++ (w ++ r)) (a.span.shift p.length) = slice w a.span := by
    simp only [slice, Span.shift]
    rw [Nat.add_sub_add_right, Nat.add_comm, List.drop_length_add_append]
    by_cases hstart : a.span.start ≤ w.length
    · rw [List.drop_append_of_le_length hstart, List.take_append_of_le_length (by simp; omega)]
    · simp [show a.span.stop - a.span.start = 0 by omega]
  simp only [OpenArgument.close, OpenArgument.shift, hslice]

theorem extend_shift (current : Option OpenArgument) (x : List Char) (i d : Nat) (item : List Item) :
    extend (current.map (·.shift d)) ⟨some t, x, i + d⟩ item =
      (extend current ⟨some t, x, i⟩ item).shift d := by
  cases current <;> simp [extend, OpenArgument.shift, Span.shift, Token.stop, Nat.add_right_comm]

theorem step?_place (head : Head) {state : HeadState} (hstate : state ≠ .start)
    (hbefore : state.Before w.length) (t : Terminal) (p r x : List Char) (i : Nat) :
    (state.place head p.length).step? (p ++ (w ++ r)) ⟨some t, x, i + p.length⟩ t =
      (state.step? w ⟨some t, x, i⟩ t).map (·.place head p.length) := by
  cases state with
  | start => exact absurd rfl hstate
  | chain h => cases t <;> simp [HeadState.place, HeadState.step?]
  | member h =>
      simp only [HeadState.place, HeadState.step?]
      split_ifs <;> simp
  | call h arguments current closers =>
      have hclose : ∀ a ∈ current, (a.shift p.length).close (p ++ (w ++ r)) = a.close w := by
        intro a ha
        obtain rfl := Option.mem_def.1 ha
        exact close_shift hbefore p r
      have hextend := extend_shift (t := t) current x i p.length
      cases closers with
      | cons closer closers =>
          simp only [HeadState.place, HeadState.step?, hextend]
          split
          · rfl
          · split_ifs <;> rfl
      | nil =>
          cases current with
          | none =>
              simp only [Option.map_none] at hextend
              cases t <;> simp [HeadState.place, HeadState.step?, hextend, Terminal.closer?, Terminal.isCloser]
          | some a =>
              simp only [Option.map_some] at hextend
              cases t <;> simp [HeadState.place, HeadState.step?, hextend, hclose, Terminal.closer?,
                Terminal.isCloser]

theorem step?_call (head : Head) (arguments : List Argument) {current : Option OpenArgument}
    (closers : List Terminal) (hcurrent : ∀ a ∈ current, a.span.stop ≤ w.length) (t : Terminal)
    (p r x : List Char) :
    (HeadState.call head arguments (current.map (·.shift p.length)) closers).step? (p ++ (w ++ r))
        ⟨some t, x, w.length + p.length⟩ t =
      ((HeadState.call ⟨"", []⟩ arguments current closers).step? w ⟨some t, x, w.length⟩ t).map
        (·.place head p.length) := by
  have hbefore : (HeadState.call ⟨"", []⟩ arguments current closers).Before w.length := by
    cases current with
    | none => trivial
    | some a => exact hcurrent a rfl
  have hplaced := step?_place head (by simp) hbefore t p r x w.length
  simpa only [HeadState.place, List.append_nil] using hplaced

theorem HeadState.Steps.call_cases {state' : HeadState} {token : Token} {h : Head}
    {arguments : List Argument} {current : Option OpenArgument} {closers : List Terminal}
    (hstep : HeadState.Steps s token t (.call h arguments current closers) state')
    (hclosers : ∀ k ∈ closers, k.isCloser = true) :
    (t = .closeParen ∧ closers = [] ∧ ∃ given, state' = .chain ⟨h.callee, h.ops ++ [.call given]⟩) ∨
      ∃ arguments' current' closers', state' = .call h arguments' current' closers' ∧
        t.Turns closers closers' ∧ ∀ a ∈ current', a.span.stop ≤ token.stop := by
  have hextend (item : List Item) : ∀ a ∈ some (extend current token item), a.span.stop ≤ token.stop := by
    intro a ha
    obtain rfl := Option.mem_some_iff.1 ha
    cases current <;> exact Nat.le_refl _
  cases hstep with
  | last _ _ a ht => exact .inl ⟨ht, rfl, _, rfl⟩
  | empty _ ht => exact .inl ⟨ht, rfl, _, rfl⟩
  | comma _ _ a ht =>
      subst ht
      exact .inr ⟨_, _, _, rfl, .keeps rfl rfl, by simp⟩
  | group _ _ _ closer ht => exact .inr ⟨_, _, _, rfl, .opens ht, hextend _⟩
  | item _ _ _ ht hclose => exact .inr ⟨_, _, _, rfl, .keeps ht hclose, hextend _⟩
  | opens _ _ _ inner closer closers ht => exact .inr ⟨_, _, _, rfl, .opens ht, hextend _⟩
  | closes _ _ _ closer closers ht =>
      subst ht
      exact .inr ⟨_, _, _, rfl, .closes (hclosers t List.mem_cons_self), hextend _⟩
  | inside _ _ _ closer closers ht hclose => exact .inr ⟨_, _, _, rfl, .keeps ht hclose, hextend _⟩

theorem closes_paren : Terminal.closeParen.Turns [.closeParen] [] := .closes rfl

theorem Terminal.Turns.depth {due due' : List Terminal} (h : t.Turns due due') :
    depthAfter (due.length + 1) t = due'.length + 1 := by
  cases h with
  | opens h => simp [depthAfter, h]
  | closes h => simp [depthAfter, Terminal.closer?_of_isCloser h, h]
  | keeps hopen hclose => simp [depthAfter, hopen, hclose]

theorem Terminal.Turns.isCloser {due due' : List Terminal} (h : t.Turns due due')
    (hdue : ∀ k ∈ due, k.isCloser = true) : ∀ k ∈ due', k.isCloser = true := by
  cases h with
  | opens h => exact List.forall_mem_cons.2 ⟨(Terminal.isCloser_of_closer? h).1, hdue⟩
  | closes => exact (List.forall_mem_cons.1 hdue).2
  | keeps => exact hdue

/-- In every place the text, with a parenthesis after it, ends the call of which `w` is read. -/
def EndsCall (w b : List Char) (arguments : List Argument) (current : Option OpenArgument)
    (closers : List Terminal) (given : List Argument) : Prop :=
  ∀ (p r : List Char) (head : Head) (last : Nat) (previous : Option Terminal),
    readTokens (p ++ (w ++ (b ++ ')' :: r)))
        (.call head arguments (current.map (·.shift p.length)) closers) last
        (tokensFrom (w.length + p.length) (closers.length + 1) previous 0 (b ++ ')' :: r)) =
      readTokens (p ++ (w ++ (b ++ ')' :: r))) (.chain ⟨head.callee, head.ops ++ [.call given]⟩)
        (w.length + b.length + p.length)
        (tokensFrom (w.length + b.length + 1 + p.length) 0 (some .closeParen) 0 r)

theorem EndsCall.gap {arguments given : List Argument} {current : Option OpenArgument}
    {closers : List Terminal} (hc : isGap c = true)
    (h : EndsCall (w ++ [c]) b arguments current closers given) :
    EndsCall w (c :: b) arguments current closers given := by
  intro p r head last previous
  have hrest := h p r head last previous
  simp only [List.append_assoc, List.singleton_append, List.length_append, List.length_singleton] at hrest
  rw [List.cons_append, tokensFrom_gap hc, Nat.add_right_comm, hrest, List.length_cons]
  congr 2 <;> omega

theorem EndsCall.token {arguments arguments' given : List Argument} {current current' : Option OpenArgument}
    {closers closers' : List Terminal} (hgap : isGap c = false)
    (ht : terminal? (c :: (a ++ b)) = some (t, a.length + 1)) (hturns : t.Turns closers closers')
    (hcurrent : ∀ a ∈ current, a.span.stop ≤ w.length)
    (hstep : HeadState.step? w (.call ⟨"", []⟩ arguments current closers) ⟨some t, c :: a, w.length⟩ t =
      some (.call ⟨"", []⟩ arguments' current' closers'))
    (h : EndsCall (w ++ c :: a) b arguments' current' closers' given) :
    EndsCall w (c :: (a ++ b)) arguments current closers given := by
  intro p r head last previous
  have hrest := h p r head (w.length + p.length) (some t)
  have hplaced := step?_call head arguments closers hcurrent t p (c :: (a ++ b) ++ ')' :: r) (c :: a)
  rw [hstep] at hplaced
  simp only [HeadState.place, List.append_nil, Option.map_some] at hplaced
  have ht' := terminal?_before endsToken_paren ht r
  rw [List.cons_append, List.append_assoc] at ht'
  simp only [List.append_assoc, List.cons_append, List.length_append, List.length_cons] at hrest hplaced ⊢
  rw [tokensFrom_token (.inl (by omega)) hgap ht', hturns.depth]
  simp only [readTokens, hplaced]
  rw [show w.length + p.length + (a.length + 1) = w.length + (a.length + 1) + p.length by omega, hrest]
  congr 2 <;> omega

theorem EndsCall.nil {arguments given : List Argument} {current : Option OpenArgument}
    (hcurrent : ∀ a ∈ current, a.span.stop ≤ w.length)
    (hstep : HeadState.step? w (.call ⟨"", []⟩ arguments current []) ⟨some .closeParen, [')'], w.length⟩
      .closeParen = some (.chain ⟨"", [.call given]⟩)) :
    EndsCall w [] arguments current [] given := by
  intro p r head last previous
  have hplaced := step?_call head arguments [] hcurrent .closeParen p (')' :: r) [')']
  rw [hstep] at hplaced
  simp only [HeadState.place, Option.map_some] at hplaced
  rw [List.nil_append, tokensFrom_bracket rfl (by decide)]
  simp only [readTokens, hplaced]
  rw [Nat.add_right_comm]
  rfl

theorem punctuation?_inj (hc : punctuation? c = some t) (hd : punctuation? d = some t) : c = d := by
  unfold punctuation? at hc hd
  split at hc
  case h_9 => cases hc
  all_goals split at hd <;> first | rfl | cases hc.trans hd.symm

theorem punctuation?_ne (h : punctuation? c = some t) :
    t ∉ [.name, .string, .template, .number, .arrow, .operator] := by
  unfold punctuation? at h
  split at h <;> cases h <;> decide

theorem eq_of_terminal?_punctuation (h : terminal? (c :: s) = some (t, n)) (hd : punctuation? d = some t) :
    c = d ∧ n = 1 := by
  have hne := punctuation?_ne hd
  cases starts_of_terminal? h with
  | punctuation hc => exact ⟨punctuation?_inj hc hd, rfl⟩
  | string | template => simp at hne
  | word ht | operator ht => simp_all

/-- The call of which `w` is read ends in `r`, where the scanner and the grammar have its end alike. -/
def EndsIn (w r : List Char) (arguments : List Argument) (current : Option OpenArgument)
    (closers : List Terminal) : Prop :=
  ∃ b u given, r = b ++ ')' :: u ∧ isBare 0 u = true ∧
    (∀ i, skip i (closers.map Terminal.frame ++ [.group ')']) r = .ok (i + (b.length + 1))) ∧
    EndsCall w b arguments current closers given

theorem exists_innermost (closers : List Terminal) :
    ∃ closer frames, closers.map Terminal.frame ++ [.group ')'] = .group closer :: frames := by
  cases closers with
  | nil => exact ⟨')', [], rfl⟩
  | cons k closers =>
      obtain ⟨closer, hk⟩ := exists_frame k
      exact ⟨closer, closers.map Terminal.frame ++ [.group ')'], by simp [hk]⟩

section EndsIn

variable {arguments arguments' given : List Argument} {current current' : Option OpenArgument}
  {closers closers' : List Terminal}

theorem EndsIn.gap (hgap : isGap c = true) (hbare : isBare 0 (c :: r) = true)
    (h : EndsIn (w ++ [c]) r arguments current closers) : EndsIn w (c :: r) arguments current closers := by
  have hskip := (skip_bare (a := [c]) (by simpa using isOrdinary_of_isGap hgap) hbare).2
  obtain ⟨b, u, given, rfl, hu, hstop, hends⟩ := h
  obtain ⟨closer, frames, hframes⟩ := exists_innermost closers
  refine ⟨c :: b, u, given, rfl, hu, fun i => ?_, hends.gap hgap⟩
  have := hskip i closer frames
  rw [hframes] at hstop ⊢
  rw [List.singleton_append] at this
  rw [this, List.length_singleton, hstop, List.length_cons]
  exact congrArg Except.ok (by omega)

theorem EndsIn.close (ht : terminal? (')' :: r) = some (.closeParen, 1)) (hbare : isBare 0 (')' :: r) = true)
    (hcurrent : ∀ a ∈ current, a.span.stop ≤ w.length)
    (hstep : HeadState.step? w (.call ⟨"", []⟩ arguments current []) ⟨some .closeParen, [')'], w.length⟩
      .closeParen = some (.chain ⟨"", [.call given]⟩)) :
    EndsIn w (')' :: r) arguments current [] := by
  obtain ⟨hbare', hskip⟩ := skip_token (a := []) (F := []) ht hbare closes_paren rfl
  refine ⟨[], r, given, rfl, hbare', fun i => ?_, .nil hcurrent hstep⟩
  exact (hskip i).trans (by simp [skip])

theorem EndsIn.token (hgap : isGap c = false) (ht : terminal? (c :: (a ++ r)) = some (t, a.length + 1))
    (hbare : isBare 0 (c :: (a ++ r)) = true) (hturns : t.Turns closers closers')
    (hcurrent : ∀ a ∈ current, a.span.stop ≤ w.length)
    (hstep : HeadState.step? w (.call ⟨"", []⟩ arguments current closers) ⟨some t, c :: a, w.length⟩ t =
      some (.call ⟨"", []⟩ arguments' current' closers'))
    (h : EndsIn (w ++ c :: a) r arguments' current' closers') :
    EndsIn w (c :: (a ++ r)) arguments current closers := by
  obtain ⟨b, u, given, rfl, hu, hstop, hends⟩ := h
  obtain ⟨closer, frames, hframes⟩ := exists_innermost closers
  have hskip := (skip_token ht hbare hturns hframes).2
  have ht' : terminal? (c :: (a ++ b)) = some (t, a.length + 1) :=
    terminal?_of_before (s := c :: (a ++ b)) endsToken_paren (by simp) (by simpa using ht) (by simp)
  refine ⟨c :: (a ++ b), u, given, by simp, hu, fun i => ?_, .token hgap ht' hturns hcurrent hstep hends⟩
  rw [hskip, hstop]
  exact congrArg Except.ok (by simp; omega)

/-- A call that the grammar reads to its end has it where the scanner has it. -/
theorem endsIn_of_readTokens {result : Head} {last : Nat} (hcurrent : ∀ a ∈ current, a.span.stop ≤ w.length)
    (hclosers : ∀ k ∈ closers, k.isCloser = true) (hbare : isBare 0 r = true)
    (h : readTokens (p ++ (w ++ r)) (.call head arguments (current.map (·.shift p.length)) closers) last
      (tokensFrom (w.length + p.length) (closers.length + 1) previous 0 r) = .ok result) :
    EndsIn w r arguments current closers := by
  -- a blank or a token is read at a time
  induction hn : r.length using Nat.strongRecOn
    generalizing w r arguments current closers last previous with
  | _ n ih =>
    cases r with
    | nil => simp [tokensFrom, readTokens] at h
    | cons c r =>
        cases hgap : isGap c with
        | true =>
            have hbare' := (skip_bare (a := [c]) (by simpa using isOrdinary_of_isGap hgap) hbare).1
            rw [tokensFrom_gap hgap, Nat.add_right_comm] at h
            have hlonger : ∀ a ∈ current, a.span.stop ≤ (w ++ [c]).length := fun a ha => by
              have := hcurrent a ha
              simp
              omega
            exact .gap hgap hbare
              (ih r.length (by simp [← hn]) hlonger hclosers hbare' (by simpa using h) rfl)
        | false =>
            cases ht : terminal? (c :: r) with
            | none =>
                rw [tokensFrom, hgap] at h
                simp [tokenAt, ht, readTokens] at h
            | some found =>
                obtain ⟨t, m⟩ := found
                obtain ⟨a, r, rfl, rfl⟩ := exists_cons_of_terminal? ht
                rw [tokensFrom_token (.inl (by omega)) hgap ht] at h
                simp only [readTokens, step?_call head arguments closers hcurrent] at h
                cases hstep : HeadState.step? w (.call ⟨"", []⟩ arguments current closers)
                    ⟨some t, c :: a, w.length⟩ t with
                | none => simp [hstep] at h
                | some state =>
                    rw [hstep, Option.map_some] at h
                    dsimp only at h
                    obtain ⟨rfl, rfl, given, rfl⟩ | ⟨arguments', current', closers', rfl, hturns, hcurrent'⟩ :=
                      (HeadState.steps_of_step? hstep).call_cases hclosers
                    · obtain ⟨rfl, hlength⟩ := eq_of_terminal?_punctuation (d := ')') ht rfl
                      obtain rfl : a = [] := by simpa using hlength
                      exact .close ht hbare hcurrent hstep
                    · obtain ⟨closer, frames, hframes⟩ := exists_innermost closers
                      have hbare' := (skip_token ht hbare hturns hframes).1
                      simp only [HeadState.place, List.append_nil, hturns.depth] at h
                      have hlt : r.length < n := by
                        simp only [← hn, List.length_cons, List.length_append]
                        omega
                      have hends := ih r.length hlt (w := w ++ c :: a)
                        (fun a ha => by simpa [Token.stop] using hcurrent' a ha)
                        (hturns.isCloser hclosers) hbare'
                        (by simpa [Nat.add_right_comm, Nat.add_assoc, Nat.add_comm] using h) rfl
                      exact .token hgap ht hbare hturns hcurrent hstep hends

end EndsIn

end CssExtract.Script
