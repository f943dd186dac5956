import CssExtract.Proofs.CallPlaces
import Mathlib.Data.List.Forall2

namespace CssExtract.Script

open Text

variable {b g p r s u w : List Char} {c : Char} {t : Terminal} {i pending : Nat} {head : Head}
  {previous : Option Terminal}

structure HeadStep where
  isCall : Bool
  span : Span
deriving DecidableEq, Repr

def HeadExtent.after (head : HeadExtent) (step : HeadStep) : HeadExtent :=
  ⟨head.ops + 1, step.isCall, step.span.stop⟩

/-- As `readHead`, with a record of every member access and call. -/
def readSteps (i : Nat) : Nat → List Char → Except ScanError (List HeadStep × Option Nat)
  | _, [] => .ok ([], none)
  | pending + 1, _ :: cs => readSteps (i + 1) pending cs
  | 0, c :: cs =>
    if isBlank c then readSteps (i + 1) 0 cs
    else match comment? i c cs with
      | some stop => do readSteps (i + 1) ((← stop) - (i + 1)) cs
      | none =>
        if c = '`' then .ok ([], some i)
        else if c = '.' then do
          let name ← skipBlanksFrom (i + 1) 0 cs
          match nameLength? isAsciiNamePart (cs.drop (name - (i + 1))) with
          | some length =>
            let (steps, tick) ← readSteps (i + 1) (name + length - (i + 1)) cs
            .ok (⟨false, ⟨i, name + length⟩⟩ :: steps, tick)
          | none => .ok ([], none)
        else if c = '(' then do
          let stop ← skip (i + 1) [.group ')'] cs
          let (steps, tick) ← readSteps (i + 1) (stop - (i + 1)) cs
          .ok (⟨true, ⟨i, stop⟩⟩ :: steps, tick)
        else .ok ([], none)
termination_by structural _ s => s

theorem readHead_eq_readSteps (i : Nat) (head : HeadExtent) (pending : Nat) (s : List Char) :
    readHead i head pending s =
      (readSteps i pending s).map fun (steps, tick) => (steps.foldl .after head, tick) := by
  induction s generalizing i head pending with
  | nil => simp [readHead, readSteps, Except.map]
  | cons c s ih =>
      cases pending with
      | succ pending => exact ih ..
      | zero =>
          -- a step before the rest of them
          have later (step : HeadStep) (pending : Nat) :
              readHead (i + 1) (head.after step) pending s =
                ((readSteps (i + 1) pending s).bind fun (steps, tick) =>
                  .ok (step :: steps, tick)).map fun (steps, tick) => (steps.foldl .after head, tick) := by
            rw [ih]
            cases readSteps (i + 1) pending s <;> rfl
          rw [readHead, readSteps]
          by_cases hblank : isBlank c = true
          · rw [if_pos hblank, if_pos hblank, ih]
          rw [if_neg hblank, if_neg hblank]
          cases comment? i c s with
          | some stop => cases stop <;> simp [bind, Except.bind, Except.map, ih]
          | none =>
              simp only [bind]
              split_ifs with htick hdot hparen
              · rfl
              · cases skipBlanksFrom (i + 1) 0 s with
                | error e => rfl
                | ok name =>
                    simp only [Except.bind]
                    cases nameLength? isAsciiNamePart (s.drop (name - (i + 1))) with
                    | none => rfl
                    | some length => exact later ⟨false, ⟨i, name + length⟩⟩ _
              · cases skip (i + 1) [.group ')'] s with
                | error e => rfl
                | ok stop => exact later ⟨true, ⟨i, stop⟩⟩ _
              · rfl

theorem readSteps_pending : readSteps i pending s = readSteps (i + pending) 0 (s.drop pending) := by
  induction pending generalizing i s with
  | zero => rfl
  | succ pending ih =>
      cases s with
      | nil => simp [readSteps]
      | cons c s =>
          rw [readSteps, ih, List.drop_succ_cons]
          congr 1
          omega

theorem readSteps_blanks (hg : ∀ c ∈ g, isBlank c = true) (i : Nat) (r : List Char) :
    readSteps i 0 (g ++ r) = readSteps (i + g.length) 0 r := by
  induction g generalizing i with
  | nil => rfl
  | cons c g ih =>
      obtain ⟨hc, hg⟩ := List.forall_mem_cons.1 hg
      rw [List.cons_append, readSteps, if_pos hc, ih hg, List.length_cons]
      congr 1
      omega

theorem readSteps_tick (i : Nat) (r : List Char) : readSteps i 0 ('`' :: r) = .ok ([], some i) := by
  rw [readSteps, if_neg (by decide), comment?_of_ne (by decide)]
  rfl

theorem readSteps_member {name : List Char} (hg : Gap g) (hname : IsName name) (hr : Ends r.head?)
    (i : Nat) :
    readSteps i 0 ('.' :: (g ++ (name ++ r))) =
      (readSteps (i + ('.' :: (g ++ name)).length) 0 r).map fun (steps, tick) =>
        (⟨false, ⟨i, i + ('.' :: (g ++ name)).length⟩⟩ :: steps, tick) := by
  rw [readSteps, if_neg (by decide), comment?_of_ne (by decide)]
  simp only [show ¬ ('.' = ('`' : Char)) by decide, if_false, if_true]
  rw [skipBlanksFrom_gap hg, skipBlanksFrom_name hname]
  simp only [bind, Except.bind]
  rw [show i + 1 + g.length - (i + 1) = g.length by omega, List.drop_left, nameLength?_append hname hr]
  dsimp only
  rw [readSteps_pending, show i + 1 + g.length + name.length - (i + 1) = g.length + name.length by omega,
    ← List.append_assoc, List.drop_left' (by simp), List.length_cons, List.length_append,
    show i + 1 + g.length + name.length = i + (g.length + name.length + 1) by omega,
    show i + 1 + (g.length + name.length) = i + (g.length + name.length + 1) by omega]
  cases readSteps (i + (g.length + name.length + 1)) 0 r <;> rfl

theorem readSteps_call (hb : Closes (.group ')') b) (i : Nat) (r : List Char) :
    readSteps i 0 ('(' :: (b ++ r)) =
      (readSteps (i + ('(' :: b).length) 0 r).map fun (steps, tick) =>
        (⟨true, ⟨i, i + ('(' :: b).length⟩⟩ :: steps, tick) := by
  rw [readSteps, if_neg (by decide), comment?_of_ne (by decide)]
  simp only [show ¬ ('(' = ('`' : Char)) by decide, show ¬ ('(' = ('.' : Char)) by decide, if_false,
    if_true]
  rw [hb _ _ _ rfl]
  simp only [bind, Except.bind]
  rw [readSteps_pending, show i + 1 + b.length - (i + 1) = b.length by omega, List.drop_left,
    List.length_cons, show i + 1 + b.length = i + (b.length + 1) by omega]
  cases readSteps (i + (b.length + 1)) 0 r <;> rfl

/-- The text, read as the only operation on a name, is the operation. -/
def Denotes (w : List Char) (op : Op) : Prop :=
  ∀ name, IsName name → readHeadText (name ++ w) = .ok ⟨String.ofList name, [op]⟩

def Op.isCall : Op → Bool
  | .member _ => false
  | .call _ => true

/-- The scanner's record of an operation of the head, as the grammar has it. -/
structure HeadStep.Matches (h : List Char) (step : HeadStep) (op : Op) : Prop where
  kind : step.isCall = op.isCall
  denotes : Denotes (slice h step.span) op

theorem tokensFrom_gaps (hg : ∀ c ∈ g, isGap c = true) (i depth : Nat) :
    tokensFrom i depth previous 0 (g ++ s) = tokensFrom (i + g.length) depth previous 0 s := by
  induction g generalizing i with
  | nil => rfl
  | cons c g ih =>
      obtain ⟨hc, hg⟩ := List.forall_mem_cons.1 hg
      rw [List.cons_append, tokensFrom_gap hc, ih hg, List.length_cons, Nat.add_right_comm, Nat.add_assoc]

theorem tokensFrom_point (hprevious : t ≠ .dot) :
    tokensFrom i 0 (some t) 0 ('.' :: s) = ⟨some .dot, ['.'], i⟩ :: tokensFrom (i + 1) 0 (some .dot) 0 s := by
  rw [tokensFrom, show isGap '.' = false by decide]
  simp [tokenAt, hprevious, depthAfter, Terminal.closer?, Terminal.isCloser]

theorem tokensFrom_name {name : List Char} (hname : IsName name) (hs : Ends s.head?) :
    tokensFrom i 0 previous 0 (name ++ s) =
      ⟨some .name, name, i⟩ :: tokensFrom (i + name.length) 0 (some .name) 0 s := by
  have hterminal := terminal?_name hname hs
  obtain ⟨c, a, rfl, hc, -⟩ := hname
  have hpoint : c ≠ '.' := by
    rintro rfl
    simp [isNameStart] at hc
  exact tokensFrom_token (.inr hpoint) (plain_of_isNameStart hc).1 hterminal

theorem readTokens_member {name : List Char} (s : List Char) (head : Head) (i last : Nat)
    (hprevious : t ≠ .dot) (hg : ∀ c ∈ g, isGap c = true) (hname : IsName name) (hr : Ends r.head?) :
    readTokens s (.chain head) last (tokensFrom i 0 (some t) 0 ('.' :: (g ++ (name ++ r)))) =
      readTokens s (.chain ⟨head.callee, head.ops ++ [.member (String.ofList name)]⟩) (i + 1 + g.length)
        (tokensFrom (i + ('.' :: (g ++ name)).length) 0 (some .name) 0 r) := by
  rw [tokensFrom_point hprevious, tokensFrom_gaps hg, tokensFrom_name hname hr]
  simp only [readTokens, HeadState.step?, if_true, List.length_cons, List.length_append]
  congr 2
  omega

/-- Where only a name can be read there is one. -/
theorem exists_name_of_readTokens {state : HeadState} {result : Head} {last : Nat}
    (hprevious : previous.any (· ≠ .dot) = false)
    (hstate : state = .start ∨ ∃ head, state = .member head)
    (h : readTokens s state last (tokensFrom i 0 previous 0 r) = .ok result) :
    ∃ g name u, r = g ++ (name ++ u) ∧ (∀ c ∈ g, isGap c = true) ∧ IsName name ∧ Ends u.head? := by
  induction r generalizing i with
  | nil => rcases hstate with rfl | ⟨head, rfl⟩ <;> simp [tokensFrom, readTokens] at h
  | cons c r ih =>
      cases hgap : isGap c with
      | true =>
          rw [tokensFrom_gap hgap] at h
          obtain ⟨g, name, u, rfl, hg, hname, hu⟩ := ih h
          exact ⟨c :: g, name, u, rfl, List.forall_mem_cons.2 ⟨hgap, hg⟩, hname, hu⟩
      | false =>
          have hname : ∃ m, terminal? (c :: r) = some (.name, m) := by
            rw [tokensFrom, hgap, hprevious] at h
            cases ht : terminal? (c :: r) with
            | none => simp [tokenAt, ht, readTokens] at h
            | some found =>
                obtain ⟨t, m⟩ := found
                by_cases hn : t = .name
                · exact ⟨m, by rw [hn]⟩
                · rcases hstate with rfl | ⟨head, rfl⟩ <;>
                    simp [tokenAt, ht, readTokens, HeadState.step?, hn] at h
          obtain ⟨m, hm⟩ := hname
          obtain ⟨name, u, hr, -, hname, hu⟩ := exists_name (nameLength?_of_terminal? hm)
          exact ⟨[], name, u, hr, by simp, hname, hu⟩

theorem ends_paren : Ends ('(' :: s).head? := show isAsciiNamePart '(' = false by decide

theorem ends_point : Ends ('.' :: s).head? := show isAsciiNamePart '.' = false by decide

theorem denotes_member {name : List Char} (hg : ∀ c ∈ g, isGap c = true) (hname : IsName name) :
    Denotes ('.' :: (g ++ name)) (.member (String.ofList name)) := by
  intro tag htag
  rw [readHeadText_name htag ends_point]
  have hread := readTokens_member (tag ++ '.' :: (g ++ name)) ⟨String.ofList tag, []⟩ tag.length 0
    (t := .name) (r := []) (by decide) hg hname rfl
  rw [List.append_nil] at hread
  rw [hread]
  simp [tokensFrom, readTokens]

theorem denotes_call {given : List Argument} (h : EndsCall ['('] b [] none [] given) :
    Denotes ('(' :: (b ++ [')'])) (.call given) := by
  intro tag htag
  rw [readHeadText_name htag ends_paren, tokensFrom_bracket rfl (by decide)]
  have hread := h tag [] ⟨String.ofList tag, []⟩ tag.length (some .openParen)
  simp only [List.singleton_append, List.length_singleton, Option.map_none, List.length_nil] at hread
  simp only [readTokens, HeadState.step?]
  rw [show depthAfter 0 .openParen = 0 + 1 from rfl, Nat.add_comm tag.length 1, hread]
  simp [tokensFrom, readTokens]

theorem isBlank_of_isGap (h : isGap c = true) : isBlank c = true := by
  simp only [isGap, Bool.or_eq_true, decide_eq_true_eq] at h
  rcases h with (((rfl | rfl) | rfl) | rfl) | rfl <;> decide

theorem gap_of_gaps (hg : ∀ c ∈ g, isGap c = true) : Gap g := by
  induction g with
  | nil => exact .nil
  | cons c g ih =>
      obtain ⟨hc, hg⟩ := List.forall_mem_cons.1 hg
      exact .blank (isBlank_of_isGap hc) (ih hg)

/-- An operation to the grammar that the scanner steps over, in front of the text. -/
structure Operation (isCall : Bool) (w : List Char) (op : Op) (r : List Char) : Prop where
  kind : isCall = op.isCall
  denotes : Denotes w op
  last : ∃ c ∈ w.getLast?, isBlank c = false
  scan : ∀ i t, readSteps i 0 (w ++ (r ++ '`' :: t)) =
    (readSteps (i + w.length) 0 (r ++ '`' :: t)).map fun (steps, tick) =>
      (⟨isCall, ⟨i, i + w.length⟩⟩ :: steps, tick)

theorem operation_member {name : List Char} (hg : ∀ c ∈ g, isGap c = true) (hname : IsName name)
    (hr : Ends r.head?) :
    Operation false ('.' :: (g ++ name)) (.member (String.ofList name)) r where
  kind := rfl
  denotes := denotes_member hg hname
  last := by
    obtain ⟨d, hd⟩ : ∃ d, name.getLast? = some d := by
      obtain ⟨c, a, rfl, -⟩ := hname
      exact ⟨_, List.getLast?_eq_some_getLast (by simp)⟩
    refine ⟨d, by simp [List.getLast?_cons, List.getLast?_append, hd], ?_⟩
    exact not_isBlank_of_isAsciiNamePart (hname.all d (List.mem_of_getLast? hd))
  scan i t := by
    have hends : Ends (r ++ '`' :: t).head? := by
      cases r with
      | nil => exact show isAsciiNamePart '`' = false by decide
      | cons c r => exact hr
    simpa using readSteps_member (gap_of_gaps hg) hname hends i

theorem operation_call {given : List Argument} (h : EndsCall ['('] b [] none [] given)
    (hb : Closes (.group ')') (b ++ [')'])) : Operation true ('(' :: (b ++ [')'])) (.call given) r where
  kind := rfl
  denotes := denotes_call h
  last := ⟨')', by simp [List.getLast?_cons, List.getLast?_append], by decide⟩
  scan i t := readSteps_call hb i _

/-- What the scanner and the grammar make of the rest of a head: the record of the one, the operations of
the other, and the part of the text without the blanks at its end. -/
structure Agreed (p s : List Char) (steps : List HeadStep) (ops : List Op) (u : List Char) : Prop where
  scan : ∀ t, readSteps p.length 0 (s ++ '`' :: t) = .ok (steps, some (p.length + s.length))
  stop : ∀ head : HeadExtent, head.stop = p.length →
    (steps.foldl .after head).stop = p.length + u.length
  blanks : ∃ g, s = u ++ g ∧ ∀ c ∈ g, isBlank c = true
  last : ∀ c ∈ u.getLast?, isBlank c = false
  same : List.Forall₂ (HeadStep.Matches (p ++ s)) steps ops

theorem agreed_gaps (hg : ∀ c ∈ g, isGap c = true) (p : List Char) : Agreed p g [] [] [] where
  scan t := by
    rw [readSteps_blanks (fun c hc => isBlank_of_isGap (hg c hc)), readSteps_tick]
  stop head h := h
  blanks := ⟨g, rfl, fun c hc => isBlank_of_isGap (hg c hc)⟩
  last := by simp
  same := .nil

theorem Agreed.cons {steps : List HeadStep} {ops : List Op} {op : Op} {isCall : Bool}
    (h : Agreed (p ++ g ++ w) r steps ops u) (hg : ∀ c ∈ g, isGap c = true)
    (hop : Operation isCall w op r) :
    Agreed p (g ++ (w ++ r))
      (⟨isCall, ⟨p.length + g.length, p.length + g.length + w.length⟩⟩ :: steps) (op :: ops)
      (g ++ (w ++ u)) where
  scan t := by
    have hrest := h.scan t
    simp only [List.length_append] at hrest
    rw [List.append_assoc, List.append_assoc, readSteps_blanks (fun c hc => isBlank_of_isGap (hg c hc)),
      hop.scan, hrest]
    simp [Except.map, Nat.add_assoc]
  stop head hstop := by
    rw [List.foldl_cons, h.stop _ (by simp [HeadExtent.after, Nat.add_assoc])]
    simp only [List.length_append]
    omega
  blanks := by
    obtain ⟨g', rfl, hg'⟩ := h.blanks
    exact ⟨g', by simp, hg'⟩
  last c hc := by
    obtain ⟨d, hd, hblank⟩ := hop.last
    rw [Option.mem_def] at hc hd
    cases hu : u.getLast? with
    | some x =>
        obtain rfl : x = c := by simpa [List.getLast?_append, hu] using hc
        exact h.last x hu
    | none =>
        obtain rfl : d = c := by simpa [List.getLast?_append, hu, hd] using hc
        exact hblank
  same := by
    refine .cons ⟨hop.kind, ?_⟩ (by simpa using h.same)
    have hslice : slice (p ++ (g ++ (w ++ r))) ⟨p.length + g.length, p.length + g.length + w.length⟩ = w := by
      rw [slice, ← List.append_assoc, ← List.length_append, List.drop_left, Nat.add_sub_cancel_left,
        List.take_left]
    dsimp only
    rw [hslice]
    exact hop.denotes

theorem exists_gaps (s : List Char) :
    ∃ g r, s = g ++ r ∧ (∀ c ∈ g, isGap c = true) ∧ ∀ c ∈ r.head?, isGap c = false := by
  refine ⟨s.takeWhile isGap, s.dropWhile isGap, by simp, fun c hc => List.mem_takeWhile_imp hc, ?_⟩
  intro c hc
  have hnot := List.head?_dropWhile_not isGap s
  rw [Option.mem_def.1 hc] at hnot
  simpa using hnot

theorem chain_cases {result : Head} {last : Nat} (ht : t ≠ .dot) (hgap : isGap c = false)
    (h : readTokens s (.chain head) last (tokensFrom i 0 (some t) 0 (c :: r)) = .ok result) :
    c = '.' ∨ c = '(' := by
  by_contra hno
  rw [not_or] at hno
  rw [tokensFrom, hgap] at h
  cases hterminal : terminal? (c :: r) with
  | none => simp [tokenAt, hno.1, hterminal, readTokens] at h
  | some found =>
      obtain ⟨k, m⟩ := found
      have hdot : k ≠ .dot := fun hk =>
        hno.1 (eq_of_terminal?_punctuation (d := '.') (hk ▸ hterminal) rfl).1
      have hparen : k ≠ .openParen := fun hk =>
        hno.2 (eq_of_terminal?_punctuation (d := '(') (hk ▸ hterminal) rfl).1
      cases k <;> simp_all [tokenAt, readTokens, HeadState.step?]

/-- What a chain goes on with is an operation to the scanner, too. -/
theorem exists_operation {result : Head} {last : Nat} (hbare : isBare 0 (c :: s) = true) (ht : t ≠ .dot)
    (hgap : isGap c = false)
    (h : readTokens (p ++ c :: s) (.chain head) last (tokensFrom p.length 0 (some t) 0 (c :: s)) =
      .ok result) :
    ∃ isCall w op r last' k, c :: s = w ++ r ∧ isBare 0 r = true ∧ Operation isCall w op r ∧ k ≠ .dot ∧
      readTokens (p ++ c :: s) (.chain ⟨head.callee, head.ops ++ [op]⟩) last'
        (tokensFrom (p.length + w.length) 0 (some k) 0 r) = .ok result := by
  rcases chain_cases ht hgap h with rfl | rfl
  · have hmember := h
    rw [tokensFrom_point ht] at hmember
    simp only [readTokens, HeadState.step?] at hmember
    obtain ⟨g, name, r, rfl, hg, hname, hr⟩ :=
      exists_name_of_readTokens (by simp) (.inr ⟨head, rfl⟩) hmember
    rw [readTokens_member _ _ _ _ ht hg hname hr] at h
    obtain ⟨hbare, -⟩ := skip_bare (a := ['.']) (List.all_eq_true.1 rfl) hbare
    obtain ⟨hbare, -⟩ := skip_bare (fun c hc => isOrdinary_of_isGap (hg c hc)) hbare
    obtain ⟨hbare, -⟩ := skip_bare (fun c hc => isOrdinary_of_isAsciiNamePart (hname.all c hc)) hbare
    exact ⟨false, '.' :: (g ++ name), _, r, _, .name, by simp, hbare, operation_member hg hname hr,
      by decide, h⟩
  · rw [tokensFrom_bracket rfl (by decide)] at h
    simp only [readTokens, HeadState.step?] at h
    rw [Nat.add_comm] at h
    have hbare := ((isBare_plain (by decide)).1 hbare).2.2
    have hnone : ∀ a ∈ (none : Option OpenArgument), a.span.stop ≤ ['('].length := by simp
    obtain ⟨b, r, given, rfl, hr, hskip, hends⟩ := endsIn_of_readTokens (w := ['(']) hnone (by simp) hbare h
    have hb : Closes (.group ')') (b ++ [')']) := by
      refine closes_of_skip (i := 0) (r := r) ?_ (.inr (by simp))
      simpa using hskip 0
    rw [show depthAfter 0 .openParen = 0 + 1 from rfl] at h
    have hread := (hends p r head p.length (some .openParen)).symm.trans h
    have hposition : p.length + ('(' :: (b ++ [')'])).length = ['('].length + b.length + 1 + p.length := by
      simp
      omega
    refine ⟨true, '(' :: (b ++ [')']), .call given, r, ['('].length + b.length + p.length, .closeParen,
      by simp, hr, operation_call hends hb, by decide, ?_⟩
    rw [hposition]
    exact hread

theorem exists_agreed {result : Head} {last : Nat} (hbare : isBare 0 s = true) (ht : t ≠ .dot)
    (h : readTokens (p ++ s) (.chain head) last (tokensFrom p.length 0 (some t) 0 s) = .ok result) :
    ∃ steps ops u, result = ⟨head.callee, head.ops ++ ops⟩ ∧ Agreed p s steps ops u := by
  induction hn : s.length using Nat.strongRecOn generalizing p s head last t with
  | _ n ih =>
    obtain ⟨g, r, rfl, hg, hr⟩ := exists_gaps s
    obtain ⟨hbare, -⟩ := skip_bare (fun c hc => isOrdinary_of_isGap (hg c hc)) hbare
    rw [tokensFrom_gaps hg] at h
    cases r with
    | nil =>
        simp only [tokensFrom, readTokens] at h
        split_ifs at h
        obtain rfl := Except.ok.inj h
        exact ⟨[], [], [], by simp, by simpa using agreed_gaps hg p⟩
    | cons c r =>
        rw [← List.append_assoc, ← List.length_append] at h
        obtain ⟨isCall, w, op, r, last', k, hw, hbare, hop, hk, h⟩ :=
          exists_operation hbare ht (hr c rfl) h
        have hne : w ≠ [] := by
          rintro rfl
          obtain ⟨d, hd, -⟩ := hop.last
          simp at hd
        have := List.length_pos_iff.2 hne
        rw [hw] at h hn ⊢
        obtain ⟨steps, ops, u, rfl, hagreed⟩ := ih r.length (by simp [← hn]; omega)
          (p := p ++ g ++ w) hbare hk (by simpa [Nat.add_assoc] using h) rfl
        exact ⟨_, _, _, by simp, hagreed.cons hg hop⟩

def tagged (h t : List Char) : List Char := h ++ '`' :: (t ++ ['`'])

theorem readPieces_plain (htick : '`' ∉ s) (hback : '\\' ∉ s) (hhole : hasSubstitution s = false)
    (start i : Nat) (r : List Char) :
    readPieces start i 0 (s ++ '`' :: r) = .ok ⟨s, [], i + s.length + 1⟩ := by
  induction s generalizing i with
  | nil => simp [readPieces]
  | cons c s ih =>
      simp only [List.mem_cons, not_or] at htick hback
      have hopen : ¬ (c = '$' ∧ (s ++ '`' :: r).head? = some '{') := by
        rintro ⟨rfl, hhead⟩
        cases s with
        | nil => simp at hhead
        | cons d s =>
            obtain rfl : d = '{' := by simpa using hhead
            simp [hasSubstitution] at hhole
      have hrest : hasSubstitution s = false := by
        rw [hasSubstitution.eq_def] at hhole
        split at hhole <;> simp_all
      have hlater := ih htick.2 hback.2 hrest (i + 1)
      rw [List.cons_append, readPieces.eq_def]
      split
      · simp_all
      · simp_all
      · simp_all
      · rename_i hc
        obtain ⟨rfl, rfl⟩ := List.cons.inj hc
        rw [if_neg (Ne.symm htick.1), if_neg (by simpa using hopen), hlater]
        simp [Except.map, Pieces.addText]
        omega

theorem trimEnd_append (hu : ∀ c ∈ u.getLast?, isBlank c = false) (hg : ∀ c ∈ g, isBlank c = true) :
    trimEnd (u ++ g) = u := by
  have hdrop : u.reverse.dropWhile isBlank = u.reverse := by
    cases hr : u.reverse with
    | nil => rfl
    | cons c r =>
        have hc := hu c (by rw [← List.head?_reverse, hr]; rfl)
        rw [List.dropWhile_cons_of_neg (by simp [hc])]
  have hblanks : ∀ c ∈ g.reverse, isBlank c = true := fun c hc => hg c (List.mem_reverse.1 hc)
  rw [trimEnd, List.reverse_append, List.dropWhile_append_of_pos hblanks, hdrop, List.reverse_reverse]

theorem exists_callee {h : List Char} (hread : readHeadText h = .ok head)
    (hcallee : head.callee.toList <+: h) :
    ∃ a r, h = a ++ r ∧ IsName a ∧ head.callee = String.ofList a ∧
      readTokens h (.chain ⟨String.ofList a, []⟩) 0 (tokensFrom a.length 0 (some .name) 0 r) = .ok head := by
  obtain ⟨g, a, r, rfl, hg, ha, hr⟩ :=
    exists_name_of_readTokens (i := 0) Option.any_none (.inl rfl) hread
  rw [readHeadText, Script.tokens, tokensFrom_gaps hg, tokensFrom_name ha hr] at hread
  simp only [readTokens, HeadState.step?, if_true, Nat.zero_add] at hread
  have hstart : (HeadState.chain ⟨String.ofList a, []⟩).head? = some ⟨String.ofList a, []⟩ := rfl
  have hname := callee_of_readTokens hstart hread
  cases g with
  | nil =>
      -- the callee is read at the offset zero
      simp only [List.length_nil, Nat.zero_add] at hread
      exact ⟨a, r, rfl, ha, hname, hread⟩
  | cons d g =>
      rw [hname, String.toList_ofList] at hcallee
      obtain ⟨c, a, rfl, hc, -⟩ := ha
      obtain ⟨rfl, -⟩ := List.cons_prefix_cons.1 hcallee
      simp [(plain_of_isNameStart hc).1] at hg

/-- A head that the grammar reads is what the scanner takes for the head of the template after it. -/
theorem head_delimited {h t : List Char} {head : Head} (hread : readHeadText h = .ok head)
    (hcallee : head.callee.toList <+: h) (hbare : isBare 0 h = true) (htick : '`' ∉ t)
    (hback : '\\' ∉ t) (hhole : hasSubstitution t = false) :
    readSite? (tagged h t) 0 head.callee.length =
        .ok (some ⟨⟨0, (tagged h t).length⟩, String.ofList (trimEnd h),
          some ⟨⟨h.length, (tagged h t).length⟩, String.ofList t, []⟩⟩) ∧
      ∃ steps, readSteps head.callee.length 0 ((tagged h t).drop head.callee.length) =
          .ok (steps, some h.length) ∧
        List.Forall₂ (HeadStep.Matches h) steps head.ops := by
  obtain ⟨a, r, rfl, ha, hname, hread⟩ := exists_callee hread hcallee
  obtain ⟨hbare, -⟩ := skip_bare (fun c hc => isOrdinary_of_isAsciiNamePart (ha.all c hc)) hbare
  obtain ⟨steps, ops, u, rfl, hagreed⟩ := exists_agreed hbare (by decide) hread
  have hlength : (String.ofList a).length = a.length := by simp
  have hdrop : (tagged (a ++ r) t).drop a.length = r ++ '`' :: (t ++ ['`']) := by
    rw [tagged, List.append_assoc, List.drop_left]
  have hscan := hagreed.scan (t ++ ['`'])
  dsimp only
  rw [hlength, hdrop]
  refine ⟨?_, steps, by simpa using hscan, hagreed.same⟩
  have htemplate : readTemplate (tagged (a ++ r) t) (a ++ r).length =
      .ok ⟨⟨(a ++ r).length, (tagged (a ++ r) t).length⟩, String.ofList t, []⟩ := by
    have hbody : (tagged (a ++ r) t).drop ((a ++ r).length + 1) = t ++ ['`'] := by
      rw [tagged, List.drop_length_add_append]
      rfl
    rw [readTemplate, hbody, readPieces_plain htick hback hhole]
    simp [tagged, bind, Except.bind]
    omega
  have hhead := readHead_eq_readSteps a.length ⟨0, false, a.length⟩ 0 (r ++ '`' :: (t ++ ['`']))
  rw [hscan] at hhead
  have hstop := hagreed.stop ⟨0, false, a.length⟩ rfl
  obtain ⟨g, rfl, hg⟩ := hagreed.blanks
  have htext : slice (tagged (a ++ (u ++ g)) t) ⟨0, a.length + u.length⟩ = trimEnd (a ++ (u ++ g)) := by
    have hlast : ∀ c ∈ (a ++ u).getLast?, isBlank c = false := by
      intro c hc
      rw [Option.mem_def, List.getLast?_append] at hc
      rcases Option.or_eq_some_iff.1 hc with hc | ⟨-, hc⟩
      · exact hagreed.last c hc
      · exact not_isBlank_of_isAsciiNamePart (ha.all c (List.mem_of_getLast? hc))
    rw [← List.append_assoc, trimEnd_append hlast hg, slice, tagged, List.drop_zero, Nat.sub_zero,
      List.append_assoc, List.take_left' (by simp)]
  simp only [readSite?, bind, Except.bind, Nat.zero_add, hdrop, hhead, Except.map, hstop, htext]
  rw [← List.length_append, htemplate]

def nestedCall : List Char := "styled.a(f, ['b)', x => -{}] )\n".toList

theorem nestedCall_delimited : ∃ head, readHeadText nestedCall = .ok head ∧
    readSite? (tagged nestedCall "margin: 0".toList) 0 head.callee.length =
        .ok (some ⟨⟨0, 42⟩, "styled.a(f, ['b)', x => -{}] )", some ⟨⟨31, 42⟩, "margin: 0", []⟩⟩) ∧
      List.Forall₂ (HeadStep.Matches nestedCall) [⟨false, ⟨6, 8⟩⟩, ⟨true, ⟨8, 30⟩⟩] head.ops := by
  have haccepted : (readHeadText nestedCall).toBool = true := by decide +kernel
  cases hread : readHeadText nestedCall with
  | error e => simp [hread, Except.toBool] at haccepted
  | ok head =>
      have hcallee : head.callee = "styled" :=
        callee_of_readHeadText (a := "styled".toList) (by decide +kernel) ends_point hread
      have hfront : head.callee.toList <+: nestedCall := by
        rw [hcallee]
        decide +kernel
      obtain ⟨hsite, steps, hsteps, hmatches⟩ := head_delimited (t := "margin: 0".toList) hread hfront
        (by decide +kernel) (by decide +kernel) (by decide +kernel) (by decide +kernel)
      have hscan : readSteps "styled".length 0 ((tagged nestedCall "margin: 0".toList).drop "styled".length) =
          .ok ([⟨false, ⟨6, 8⟩⟩, ⟨true, ⟨8, 30⟩⟩], some 31) := by decide +kernel
      rw [hcallee] at hsite hsteps
      obtain ⟨rfl, -⟩ := Prod.mk.inj (Except.ok.inj (hsteps.symm.trans hscan))
      refine ⟨head, rfl, ?_, hmatches⟩
      rw [hcallee, hsite]
      decide +kernel

end CssExtract.Script
