import CssExtract.Proofs.CallPlaces

namespace CssExtract.Script

open Text

variable {a r r' s x : List Char} {c y z : Char} {t : Terminal} {i last n pending : Nat}
  {head : Head} {arguments : List Argument} {current : OpenArgument} {closers closers' due due' : List Terminal}
  {previous : Option Terminal} {state state' : HeadState} {token : Token} {rest : List Token}

def Argument.unsourced (a : Argument) : Argument := { a with source := "" }

def Op.unsourced : Op → Op
  | .member name => .member name
  | .call arguments => .call (arguments.map .unsourced)

def Head.unsourced (head : Head) : Head := ⟨head.callee, head.ops.map .unsourced⟩

def OpenArgument.unplaced (a : OpenArgument) : OpenArgument := { a with span := ⟨0, 0⟩ }

/-- The state without the places of its arguments. -/
def HeadState.outline : HeadState → HeadState
  | .start => .start
  | .chain head => .chain head.unsourced
  | .member head => .member head.unsourced
  | .call head arguments current closers =>
    .call head.unsourced (arguments.map .unsourced) (current.map .unplaced) closers

def HeadState.turn (state : HeadState) (t : Terminal) (text : List Char) : Option HeadState :=
  (state.step? [] ⟨some t, text, 0⟩ t).map .outline

def HeadState.inChain : HeadState → Bool
  | .chain _ => true
  | _ => false

/-- What a head is read to from a state on, whose next `pending` characters are already read. -/
def outlineFrom : HeadState → Nat → List Char → Option Head
  | .chain head, _, [] => if head.ops.isEmpty then none else some head
  | _, _, [] => none
  | state, pending + 1, _ :: s => outlineFrom state pending s
  | state, 0, c :: s =>
    if isGap c then outlineFrom state 0 s
    else
      let token := tokenAt state.inChain 0 (c :: s)
      (token.terminal.bind (state.turn · token.text)).bind
        (outlineFrom · (token.text.length - 1) s)
termination_by structural _ _ s => s

@[simp] theorem Argument.unsourced_unsourced (a : Argument) : a.unsourced.unsourced = a.unsourced := rfl

@[simp] theorem Op.unsourced_unsourced (op : Op) : op.unsourced.unsourced = op.unsourced := by
  cases op <;> simp [unsourced]

@[simp] theorem Head.unsourced_unsourced (head : Head) : head.unsourced.unsourced = head.unsourced := by
  simp [unsourced]

theorem Head.unsourced_append {op op' : Op} (h : op.unsourced = op'.unsourced) (head : Head) :
    Head.unsourced ⟨head.unsourced.callee, head.unsourced.ops ++ [op]⟩ =
      Head.unsourced ⟨head.callee, head.ops ++ [op']⟩ := by
  simp [unsourced, h]

theorem close_unsourced (s : List Char) (a : OpenArgument) :
    (a.unplaced.close []).unsourced = (a.close s).unsourced := rfl

theorem extend_unplaced (current : Option OpenArgument) (token : Token) (t : Terminal) (item : List Item) :
    (extend (current.map .unplaced) ⟨some t, token.text, 0⟩ item).unplaced =
      (extend current token item).unplaced := by
  cases current <;> rfl

theorem turn_outline (state : HeadState) (s : List Char) (token : Token) (t : Terminal) :
    state.outline.turn t token.text = (state.step? s token t).map .outline := by
  cases state with
  | start => simp only [HeadState.outline, HeadState.turn, HeadState.step?]
  | chain head => cases t <;> simp [HeadState.outline, HeadState.turn, HeadState.step?]
  | member head =>
      simp only [HeadState.outline, HeadState.turn, HeadState.step?]
      split_ifs <;> simp [HeadState.outline, Head.unsourced_append rfl]
  | call head arguments current closers =>
      have hextend (item : List Item) := extend_unplaced current token t item
      cases closers with
      | cons closer closers =>
          simp only [HeadState.outline, HeadState.turn, HeadState.step?]
          split
          · simp [HeadState.outline, hextend]
          · split_ifs <;> simp [HeadState.outline, hextend]
      | nil =>
          cases current with
          | none =>
              simp only [Option.map_none] at hextend
              cases t <;> simp [HeadState.turn, HeadState.outline, HeadState.step?, hextend, Terminal.closer?,
                Terminal.isCloser, Head.unsourced_append rfl]
          | some a =>
              have hcall : (Op.call (arguments.map .unsourced ++ [a.unplaced.close []])).unsourced =
                  (Op.call (arguments ++ [a.close s])).unsourced := by
                simp [Op.unsourced, close_unsourced s]
              simp only [Option.map_some] at hextend
              cases t <;> simp [HeadState.turn, HeadState.outline, HeadState.step?, hextend, Terminal.closer?,
                Terminal.isCloser, close_unsourced s, Head.unsourced_append hcall]

def HeadState.depth : HeadState → Nat
  | .call _ _ _ closers => closers.length + 1
  | _ => 0

/-- Closers are due, and within them there is an argument. -/
def HeadState.Proper : HeadState → Prop
  | .call _ _ current closers =>
    (∀ k ∈ closers, k.isCloser = true) ∧ (closers ≠ [] → current.isSome = true)
  | _ => True

theorem HeadState.Steps.proper (h : state.Steps s token t state') (hproper : state.Proper) :
    state'.Proper := by
  have hopened {k : Terminal} (ht : t.closer? = some k) := (Terminal.isCloser_of_closer? ht).1
  cases h with
  | group _ _ _ closer ht => exact ⟨by simp [hopened ht], fun _ => rfl⟩
  | opens _ _ _ inner closer closers ht =>
      exact ⟨List.forall_mem_cons.2 ⟨hopened ht, hproper.1⟩, fun _ => rfl⟩
  | closes => exact ⟨(List.forall_mem_cons.1 hproper.1).2, fun _ => rfl⟩
  | inside => exact ⟨hproper.1, fun _ => rfl⟩
  | item | comma | call => exact ⟨by simp, by simp⟩
  | start | point | member | last | empty => trivial

theorem HeadState.Steps.depth (h : state.Steps s token t state') (hproper : state.Proper) :
    state'.depth = depthAfter state.depth t ∧
      state'.inChain = (depthAfter state.depth t = 0 && t ≠ .dot) := by
  cases h with
  | group _ _ _ closer ht | opens _ _ _ _ _ _ ht =>
      simp [HeadState.depth, depthAfter, HeadState.inChain, ht]
  | item _ _ _ ht hclose | inside _ _ _ _ _ ht hclose =>
      simp [HeadState.depth, depthAfter, HeadState.inChain, ht, hclose]
  | closes _ _ _ closer closers ht =>
      subst ht
      have hclose := hproper.1 t List.mem_cons_self
      simp [HeadState.depth, depthAfter, HeadState.inChain, hclose, Terminal.closer?_of_isCloser hclose]
  | start ht | point _ ht | call _ ht | member _ ht | last _ _ _ ht | empty _ ht | comma _ _ _ ht =>
      subst ht
      simp [HeadState.depth, depthAfter, HeadState.inChain, Terminal.closer?, Terminal.isCloser]

@[simp] theorem HeadState.inChain_outline (state : HeadState) : state.outline.inChain = state.inChain := by
  cases state <;> rfl

theorem tokenAt_eq (chain : Bool) (i : Nat) (s : List Char) :
    tokenAt chain i s = { tokenAt chain 0 s with start := i } := by
  simp only [tokenAt]
  split_ifs
  · rfl
  · split <;> rfl

theorem toOption_readTokens (hproper : state.Proper) (hdepth : state.depth = n)
    (hchain : state.inChain = (n = 0 && previous.any (· ≠ .dot))) :
    (readTokens s state last (tokensFrom i n previous pending r)).toOption.map .unsourced =
      outlineFrom state.outline pending r := by
  induction r generalizing state last i n previous pending with
  | nil =>
      cases state with
      | chain head =>
          by_cases hops : head.ops = [] <;>
            simp [tokensFrom, readTokens, outlineFrom, HeadState.outline, Head.unsourced, hops, Except.toOption]
      | start | member | call => simp [tokensFrom, readTokens, outlineFrom, HeadState.outline, Except.toOption]
  | cons c r ih =>
      cases pending with
      | succ pending => simpa only [tokensFrom, outlineFrom] using ih hproper hdepth hchain
      | zero =>
          rw [tokensFrom, outlineFrom]
          split_ifs with hgap
          · exact ih hproper hdepth hchain
          rw [HeadState.inChain_outline, hchain]
          simp only [tokenAt_eq _ i]
          generalize tokenAt _ 0 (c :: r) = token
          obtain ⟨terminal, text, start⟩ := token
          cases terminal with
          | none => simp [readTokens, Except.toOption]
          | some t =>
              have hturn := turn_outline state s ⟨some t, text, i⟩ t
              simp only [readTokens, Option.bind_some, hturn]
              cases hstep : state.step? s ⟨some t, text, i⟩ t with
              | none => simp [Except.toOption]
              | some state' =>
                  have hsteps := HeadState.steps_of_step? hstep
                  obtain ⟨hdepth', hchain'⟩ := hsteps.depth hproper
                  rw [hdepth] at hdepth' hchain'
                  exact ih (hsteps.proper hproper) hdepth' (by simpa using hchain')

theorem toOption_readHeadText (s : List Char) :
    (readHeadText s).toOption.map .unsourced = outlineFrom .start 0 s :=
  toOption_readTokens (show HeadState.start.Proper from trivial) rfl rfl

theorem outlineFrom_pending (pending : Nat) :
    outlineFrom state pending s = outlineFrom state 0 (s.drop pending) := by
  induction pending generalizing s with
  | zero => rfl
  | succ pending ih =>
      cases s with
      | nil => cases state <;> rfl
      | cons c s => rw [outlineFrom, ih, List.drop_succ_cons]

theorem outlineFrom_gap (hc : isGap c = true) :
    outlineFrom state 0 (c :: s) = outlineFrom state 0 s := by
  rw [outlineFrom, if_pos hc]

theorem outlineFrom_token (hgap : isGap c = false)
    (htoken : tokenAt state.inChain 0 (c :: (a ++ r)) = ⟨some t, c :: a, 0⟩) :
    outlineFrom state.outline 0 (c :: (a ++ r)) =
      (state.step? [] ⟨some t, c :: a, 0⟩ t).bind fun state' => outlineFrom state'.outline 0 r := by
  have hturn := turn_outline state [] ⟨some t, c :: a, 0⟩ t
  rw [outlineFrom, HeadState.inChain_outline, htoken, hgap]
  simp only [Bool.false_eq_true, if_false, Option.bind_some, hturn, List.length_cons, Nat.add_sub_cancel,
    outlineFrom_pending a.length, List.drop_left]
  cases state.step? [] ⟨some t, c :: a, 0⟩ t <;> rfl

theorem outlineFrom_same (hgap : isGap c = false)
    (h : tokenAt state.inChain 0 (c :: (a ++ r)) = ⟨some t, c :: a, 0⟩)
    (h' : tokenAt state.inChain 0 (c :: (a ++ r')) = ⟨some t, c :: a, 0⟩)
    (hrest : ∀ state', state.Steps [] ⟨some t, c :: a, 0⟩ t state' →
      outlineFrom state'.outline 0 r = outlineFrom state'.outline 0 r') :
    outlineFrom state.outline 0 (c :: (a ++ r)) = outlineFrom state.outline 0 (c :: (a ++ r')) := by
  rw [outlineFrom_token hgap h, outlineFrom_token hgap h']
  cases hstep : state.step? [] ⟨some t, c :: a, 0⟩ t with
  | none => rfl
  | some state' => exact hrest state' (HeadState.steps_of_step? hstep)

theorem outlineFrom_none (hgap : isGap c = false) (hc : state.inChain = false ∨ c ≠ '.')
    (ht : terminal? (c :: s) = none) : outlineFrom state.outline 0 (c :: s) = none := by
  have hpoint : (state.inChain && (c :: s).head? = some '.') = false := by
    rcases hc with hc | hc <;> simp [hc]
  rw [outlineFrom, HeadState.inChain_outline, hgap, tokenAt, hpoint, ht]
  rfl

theorem tokenAt_of_terminal? {chain : Bool} (hc : chain = false ∨ c ≠ '.')
    (ht : terminal? (c :: (a ++ r)) = some (t, a.length + 1)) :
    tokenAt chain i (c :: (a ++ r)) = ⟨some t, c :: a, i⟩ := by
  rw [tokenAt, ht]
  rcases hc with rfl | hc
  · simp
  · simp [hc]

theorem Terminal.Turns.append (h : t.Turns due due') (l : List Terminal) : t.Turns (due ++ l) (due' ++ l) := by
  cases h with
  | opens h => exact .opens h
  | closes h => exact .closes h
  | keeps hopen hclose => exact .keeps hopen hclose

theorem Terminal.Turns.step (h : t.Turns closers closers') (hne : closers ≠ [])
    (hclosers : ∀ k ∈ closers, k.isCloser = true) (head : Head) (arguments : List Argument)
    (current : OpenArgument) (s : List Char) (token : Token) : ∃ state,
      HeadState.step? s (.call head arguments (some current) closers) token t = some state ∧
        state.outline = (HeadState.call head arguments (some current) closers').outline := by
  have houtline (closers : List Terminal) :
      (HeadState.call head arguments (some (extend (some current) token [])) closers).outline =
        (HeadState.call head arguments (some current) closers).outline := by
    simp [HeadState.outline, extend, OpenArgument.unplaced]
  obtain ⟨closer, closers, rfl⟩ := List.exists_cons_of_ne_nil hne
  refine ⟨.call head arguments (some (extend (some current) token [])) closers', ?_, houtline _⟩
  cases h with
  | opens h => simp only [HeadState.step?, h]
  | closes h => simp only [HeadState.step?, Terminal.closer?_of_isCloser h, if_true]
  | keeps hopen hclose =>
      have hother : t ≠ closer := by
        rintro rfl
        exact absurd (hclose.symm.trans (hclosers t List.mem_cons_self)) (by decide)
      simp only [HeadState.step?, hopen, hclose, hother, if_false, Bool.false_eq_true]

/-- A bracket is open in an argument. -/
def HeadState.Nested (state : HeadState) : Prop := state.Proper ∧ 2 ≤ state.depth

theorem HeadState.nested (hne : closers ≠ []) (hclosers : ∀ k ∈ closers, k.isCloser = true) :
    (HeadState.call head arguments (some current) closers).Nested := by
  refine ⟨⟨hclosers, fun _ => rfl⟩, ?_⟩
  have := List.length_pos_iff.2 hne
  simp only [depth]
  omega

theorem HeadState.Nested.exists_call (h : state.Nested) : ∃ head arguments current closer closers,
    state = .call head arguments (some current) (closer :: closers) ∧
      ∀ k ∈ closer :: closers, k.isCloser = true := by
  obtain ⟨hproper, hdepth⟩ := h
  match state with
  | .start | .chain _ | .member _ => simp [depth] at hdepth
  | .call _ _ _ [] => simp [depth] at hdepth
  | .call _ _ none (closer :: closers) => simp [Proper] at hproper
  | .call head arguments (some current) (closer :: closers) =>
      exact ⟨head, arguments, current, closer, closers, rfl, hproper.1⟩

theorem HeadState.Nested.step (h : state.Nested) (hopen : t.closer? = none) (hclose : t.isCloser = false)
    (token : Token) : ∃ state', state.step? s token t = some state' ∧ state'.outline = state.outline := by
  obtain ⟨head, arguments, current, closer, closers, rfl, hclosers⟩ := h.exists_call
  exact (Terminal.Turns.keeps hopen hclose).step (by simp) hclosers head arguments current s token

theorem HeadState.Nested.inChain (h : state.Nested) : state.inChain = false := by
  obtain ⟨_, _, _, _, _, rfl, -⟩ := h.exists_call
  rfl

theorem outlineFrom_nested (h : state.Nested) (hgap : isGap c = false)
    (ht : terminal? (c :: (a ++ r)) = some (t, a.length + 1)) (hopen : t.closer? = none)
    (hclose : t.isCloser = false) :
    outlineFrom state.outline 0 (c :: (a ++ r)) = outlineFrom state.outline 0 r := by
  obtain ⟨state', hstep, hsame⟩ := h.step (s := []) hopen hclose ⟨some t, c :: a, 0⟩
  rw [outlineFrom_token hgap (tokenAt_of_terminal? (.inl h.inChain) ht), hstep, Option.bind_some, hsame]

theorem terminal?_operator (hc : isOperator c = true) (s : List Char) :
    isGap c = false ∧ terminal? (c :: s) =
      if c = '=' ∧ s.head? = some '>' then some (.arrow, 2)
      else some (.operator, ((c :: s).takeWhile isOperator).length) := by
  have hmem : c ∈ "-+*/%<>=!&|?:~^;".toList := by simpa [isOperator] using hc
  have hplain : "-+*/%<>=!&|?:~^;".toList.all (fun c => isGap c = false ∧ isQuote c = false ∧ c ≠ '`' ∧
      isNameStart c = false ∧ isDigit c = false ∧ c ≠ '.') = true := by decide +kernel
  obtain ⟨hgap, hquote, htick, hname, hdigit, hpoint⟩ := of_decide_eq_true (List.all_eq_true.1 hplain c hmem)
  refine ⟨hgap, ?_⟩
  rw [terminal?_plain hquote htick, numberLength?_eq_none hdigit hpoint]
  simp [nameLength?, hname, hc]

theorem operators_of_terminal? (hc : isOperator c = true)
    (ht : terminal? (c :: (a ++ r)) = some (t, a.length + 1)) :
    (∀ d ∈ c :: a, isOperator d = true) ∧ t.closer? = none ∧ t.isCloser = false := by
  rw [(terminal?_operator hc _).2] at ht
  split_ifs at ht with harrow
  · obtain ⟨rfl, hlength⟩ := Prod.mk.inj (Option.some.inj ht)
    obtain ⟨d, rfl⟩ := List.length_eq_one_iff.1 (Nat.succ.inj hlength).symm
    obtain ⟨rfl, rfl⟩ : c = '=' ∧ d = '>' := by simpa using harrow
    exact ⟨List.all_eq_true.1 rfl, rfl, rfl⟩
  · obtain ⟨rfl, hlength⟩ := Prod.mk.inj (Option.some.inj ht)
    refine ⟨fun d hd => ?_, rfl, rfl⟩
    have hfront := List.takeWhile_prefix isOperator (l := c :: (a ++ r))
    rw [List.prefix_iff_eq_take, hlength, List.take_succ_cons, List.take_left] at hfront
    rw [← hfront] at hd
    exact List.mem_takeWhile_imp hd

theorem outlineFrom_dropOperators (h : state.Nested) (s : List Char) :
    outlineFrom state.outline 0 (s.dropWhile isOperator) = outlineFrom state.outline 0 s := by
  induction hn : s.length using Nat.strongRecOn generalizing s with
  | _ n ih =>
    cases s with
    | nil => rfl
    | cons c s =>
        cases hc : isOperator c with
        | false => rw [List.dropWhile_cons_of_neg (by simp [hc])]
        | true =>
            rw [List.dropWhile_cons_of_pos hc]
            obtain ⟨hgap, ht⟩ := terminal?_operator hc s
            split_ifs at ht with harrow
            · obtain ⟨s, rfl⟩ := List.head?_eq_some_iff.1 harrow.2
              have hrest := outlineFrom_nested (a := ['>']) h hgap ht rfl rfl
              have hlt : s.length < n := by
                simp only [← hn, List.length_cons]
                omega
              rw [List.dropWhile_cons_of_pos (by decide), ih s.length hlt s rfl]
              exact hrest.symm
            · rw [List.takeWhile_cons_of_pos hc, List.length_cons] at ht
              have hrun := outlineFrom_nested (a := s.takeWhile isOperator) (r := s.dropWhile isOperator) h
                hgap (by rwa [List.takeWhile_append_dropWhile]) rfl rfl
              rw [List.takeWhile_append_dropWhile] at hrun
              exact hrun.symm

theorem outlineFrom_operators (h : state.Nested) (ha : ∀ c ∈ a, isOperator c = true) (r : List Char) :
    outlineFrom state.outline 0 (a ++ r) = outlineFrom state.outline 0 r := by
  rw [← outlineFrom_dropOperators h, List.dropWhile_append_of_pos ha, outlineFrom_dropOperators h]

/-- A terminal does not depend on what stands behind a character that ends words, nor on which one it
is. -/
theorem terminal?_barrier (hy : EndsWord y) (hz : EndsWord z)
    (hoperator : isOperator c = true → isOperator y = false ∧ isOperator z = false)
    (hquote : isQuote c = false) (htick : c ≠ '`') (s w w' : List Char) :
    terminal? (c :: (s ++ y :: w)) = terminal? (c :: (s ++ z :: w')) := by
  have hname (x : Char) (hx : EndsWord x) (w : List Char) :
      nameLength? isAsciiNamePart (c :: (s ++ x :: w)) = nameLength? isAsciiNamePart (c :: s) := by
    simp only [nameLength?, takeWhile_barrier hx.name]
  have hnumber (x : Char) (hx : EndsWord x) (w : List Char) :
      numberLength? (c :: (s ++ x :: w)) = numberLength? (c :: s) :=
    numberLength?_barrier hx.number (c :: s) w
  rw [terminal?_plain hquote htick, terminal?_plain hquote htick]
  simp only [hname y hy, hname z hz, hnumber y hy, hnumber z hz]
  cases hc : isOperator c with
  | false =>
      have hequals : c ≠ '=' := by
        rintro rfl
        exact absurd hc (by decide)
      simp [hequals]
  | true =>
      obtain ⟨hy, hz⟩ := hoperator hc
      have hgreater {x : Char} (hx : isOperator x = false) (w : List Char) :
          (s ++ x :: w).head? = some '>' ↔ s.head? = some '>' := by
        have hne : x ≠ '>' := by
          rintro rfl
          exact absurd hx (by decide)
        cases s <;> simp [hne]
      have hrun {x : Char} (hx : isOperator x = false) (w : List Char) :
          (c :: (s ++ x :: w)).takeWhile isOperator = (c :: s).takeWhile isOperator :=
        takeWhile_barrier hx (c :: s) w
      simp only [hgreater hy, hgreater hz, hrun hy, hrun hz]

theorem exists_turns (h : nests due (token :: rest) = true) (ht : token.terminal = some t) :
    ∃ due', t.Turns due due' ∧ nests due' rest = true := by
  simp only [nests, ht] at h
  cases hopen : t.closer? with
  | some k => exact ⟨k :: due, .opens hopen, by simpa only [hopen] using h⟩
  | none =>
      cases hclose : t.isCloser with
      | false => exact ⟨due, .keeps hopen hclose, by simpa [hopen, hclose] using h⟩
      | true =>
          cases due with
          | nil => simp [hopen, hclose] at h
          | cons k due =>
              simp only [hopen, hclose, if_true, Bool.and_eq_true, decide_eq_true_eq] at h
              exact ⟨due, h.1 ▸ .closes hclose, h.2⟩

theorem terminal?_append (hgap : isGap c = false) (hc : isOperator c = false)
    (ht : terminal? (c :: s) = some (t, n)) (hlast : ∀ z ∈ (c :: s).getLast?, z = '/' ∨ z = '\n')
    (r : List Char) : terminal? (c :: (s ++ r)) = some (t, n) := by
  by_cases hquote : isQuote c = true
  · rw [terminal?_quote hquote] at ht ⊢
    obtain ⟨k, hk, hsame⟩ := Option.map_eq_some_iff.1 ht
    rw [stringTail?_append hquote hk, Option.map_some, hsame]
  by_cases htick : c = '`'
  · subst htick
    rw [terminal?_tick] at ht ⊢
    obtain ⟨k, hk, hsame⟩ := Option.map_eq_some_iff.1 ht
    rw [templateTail?_append hk, Option.map_some, hsame]
  rcases List.eq_nil_or_concat s with rfl | ⟨s, z, rfl⟩
  · rcases hlast c rfl with rfl | rfl
    · exact absurd hc (by decide)
    · exact absurd hgap (by decide)
  · rw [List.concat_eq_append] at ht hlast ⊢
    have hz : EndsWord z := by
      rcases hlast z (by simp [List.getLast?_cons]) with rfl | rfl
      · exact endsWord_slash
      · exact ⟨by decide, by constructor <;> decide⟩
    rw [List.append_assoc, List.singleton_append, ← ht]
    exact terminal?_barrier hz hz (by simp [hc]) (by simpa using hquote) htick s r []

theorem outlineFrom_of_nests {closer : Terminal} (hclosers : ∀ k ∈ closer :: closers, k.isCloser = true)
    (hdue : ∀ k ∈ due, k.isCloser = true)
    (h : nests due (tokensFrom i (due.length + 1) previous 0 x) = true)
    (hend : r ≠ [] → ∀ z ∈ x.getLast?, z = '/' ∨ z = '\n') :
    outlineFrom (HeadState.call head arguments (some current) (due ++ closer :: closers)).outline 0 (x ++ r) =
      outlineFrom (HeadState.call head arguments (some current) (closer :: closers)).outline 0 r := by
  induction hn : x.length using Nat.strongRecOn generalizing x due i previous with
  | _ n ih =>
    cases x with
    | nil =>
        obtain rfl : due = [] := by simpa [tokensFrom, nests] using h
        rfl
    | cons c x =>
        have hlast {y : List Char} (hy : y <:+ c :: x) (hr : r ≠ []) :
            ∀ z ∈ y.getLast?, z = '/' ∨ z = '\n' := by
          intro z hz
          obtain ⟨u, hu⟩ := hy
          exact hend hr z (by rw [← hu, List.getLast?_append, Option.mem_def.1 hz]; rfl)
        cases hgap : isGap c with
        | true =>
            rw [tokensFrom_gap hgap] at h
            rw [List.cons_append, outlineFrom_gap hgap]
            exact ih x.length (by simp [← hn]) hdue h (hlast (List.suffix_cons c x)) rfl
        | false =>
            obtain ⟨t, a, x, rfl, ht, hrest⟩ := exists_token (by omega) hgap h
            obtain ⟨due', hturns, hnests⟩ := exists_turns hrest rfl
            have hdue' := hturns.isCloser hdue
            rw [hturns.depth] at hnests
            have hlt : x.length < n := by
              simp only [← hn, List.length_append, List.length_cons]
              omega
            have hrest := ih x.length hlt hdue' hnests (hlast ⟨c :: a, by simp⟩) rfl
            have hall : ∀ k ∈ due ++ closer :: closers, k.isCloser = true := fun k hk =>
              (List.mem_append.1 hk).elim (hdue k) (hclosers k)
            rw [← hrest]
            cases hc : isOperator c with
            | true =>
                -- the text may end in an operator that goes on behind it
                obtain ⟨ha, hopen, hclose⟩ := operators_of_terminal? hc ht
                obtain rfl := hturns.of_plain hopen hclose
                rw [← List.cons_append, List.append_assoc]
                exact outlineFrom_operators (HeadState.nested (by simp) hall) ha _
            | false =>
                have ht' : terminal? (c :: (a ++ (x ++ r))) = some (t, a.length + 1) := by
                  cases r with
                  | nil => simpa using ht
                  | cons d r => simpa using terminal?_append hgap hc ht (hend (by simp)) (d :: r)
                obtain ⟨state, hstep, houtline⟩ := (hturns.append (closer :: closers)).step (by simp) hall
                  head arguments current [] ⟨some t, c :: a, 0⟩
                rw [List.cons_append, List.append_assoc, outlineFrom_token hgap
                  (tokenAt_of_terminal? (.inl rfl) ht'), hstep, Option.bind_some, houtline]

theorem outlineFrom_legible (h : state.Nested) (hx : Legible x)
    (hend : r ≠ [] → ∀ z ∈ x.getLast?, z = '/' ∨ z = '\n') :
    outlineFrom state.outline 0 (x ++ r) = outlineFrom state.outline 0 r := by
  obtain ⟨head, arguments, current, closer, closers, rfl, hclosers⟩ := h.exists_call
  have hnone : ∀ k ∈ ([] : List Terminal), k.isCloser = true := by simp
  exact outlineFrom_of_nests hclosers hnone hx hend

end CssExtract.Script
