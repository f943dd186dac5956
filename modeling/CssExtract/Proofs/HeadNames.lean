import CssExtract.Proofs.TokenText

namespace CssExtract.Script

open Text

variable {s a r : List Char} {t : Terminal} {state state' : HeadState} {token : Token}
  {tokens : List Token} {head : Head} {i n last depth pending : Nat} {previous : Option Terminal}

theorem nameLength?_of_terminal? (h : terminal? s = some (.name, n)) :
    nameLength? isAsciiNamePart s = some n := by
  cases s with
  | nil => simp [terminal?] at h
  | cons c s =>
      by_cases hquote : isQuote c = true
      · rw [terminal?_quote hquote] at h
        obtain ⟨_, -, hsame⟩ := Option.map_eq_some_iff.1 h
        simp at hsame
      rw [Bool.not_eq_true] at hquote
      by_cases htick : c = '`'
      · subst htick
        rw [terminal?_tick] at h
        obtain ⟨_, -, hsame⟩ := Option.map_eq_some_iff.1 h
        simp at hsame
      rw [terminal?_plain hquote htick] at h
      split_ifs at h
      · simp at h
      all_goals
        rcases Option.or_eq_some_iff.1 h with h | ⟨-, h⟩
        · obtain ⟨k, hk, hsame⟩ := Option.map_eq_some_iff.1 h
          obtain ⟨-, rfl⟩ := Prod.mk.inj hsame
          exact hk
        rcases Option.or_eq_some_iff.1 h with h | ⟨-, h⟩
        · obtain ⟨_, -, hsame⟩ := Option.map_eq_some_iff.1 h
          simp at hsame
      · simp at h
      · obtain ⟨_, hk, hsame⟩ := Option.map_eq_some_iff.1 h
        obtain ⟨rfl, -⟩ := Prod.mk.inj hsame
        simp only [punctuation?] at hk
        split at hk <;> simp at hk

structure Token.Stands (s : List Char) (token : Token) : Prop where
  slice : slice s ⟨token.start, token.stop⟩ = token.text
  name : token.terminal = some .name → IsName token.text

theorem tokenAt_stands {chain : Bool} (hs : s.drop i = r) : (tokenAt chain i r).Stands s := by
  subst hs
  have htake (n : Nat) :
      slice s ⟨i, i + ((s.drop i).take n).length⟩ = (s.drop i).take n := by
    rw [slice, Nat.add_sub_cancel_left, List.take_eq_take_iff, List.length_take]
    dsimp only
    omega
  simp only [tokenAt]
  split_ifs with hdot
  · simp only [Bool.and_eq_true, decide_eq_true_eq] at hdot
    obtain ⟨r, hr⟩ := List.head?_eq_some_iff.1 hdot.2
    have hone := htake 1
    rw [hr] at hone
    exact ⟨hone, by simp⟩
  · split
    · rename_i t n ht
      refine ⟨htake n, fun hname => ?_⟩
      obtain rfl : t = .name := by simpa using hname
      obtain ⟨a, r, hs, rfl, ha, -⟩ := exists_name (nameLength?_of_terminal? ht)
      rw [hs, List.take_left]
      exact ha
    · exact ⟨htake 1, by simp⟩

theorem tokensFrom_stands (hs : s.drop i = r) :
    ∀ token ∈ tokensFrom i depth previous pending r, token.Stands s := by
  induction r generalizing i depth previous pending with
  | nil => simp [tokensFrom]
  | cons c r ih =>
      have hr : s.drop (i + 1) = r := by
        rw [← List.drop_drop, hs, List.drop_one, List.tail_cons]
      cases pending with
      | succ pending => exact ih hr
      | zero =>
          rw [tokensFrom]
          dsimp only
          split_ifs
          · exact ih hr
          · have hfirst : (tokenAt (depth = 0 && previous.any (· ≠ .dot)) i (c :: r)).Stands s :=
              tokenAt_stands hs
            split
            · exact List.forall_mem_singleton.2 hfirst
            · exact List.forall_mem_cons.2 ⟨hfirst, ih hr⟩

theorem tokens_stand : ∀ token ∈ Script.tokens s, token.Stands s := tokensFrom_stands rfl

def Argument.Named (a : Argument) : Prop := a.shape = .identifier → IsName a.source.toList

def Op.Named : Op → Prop
  | .member _ => True
  | .call arguments => ∀ a ∈ arguments, a.Named

def Head.Named (head : Head) : Prop := ∀ op ∈ head.ops, op.Named

/-- An argument that is being read, in brackets or not: if it is one name so far, it has the text
of the name. -/
structure OpenArgument.Named (s : List Char) (bracketed : Prop) (a : OpenArgument) : Prop where
  items : a.items ≠ []
  group : bracketed → .group ∈ a.items
  name : ∀ text, a.items = [.token .name text] → IsName text ∧ slice s a.span = text

def HeadState.Named (s : List Char) : HeadState → Prop
  | .start => True
  | .chain head | .member head => head.Named
  | .call head arguments current closers =>
    head.Named ∧ (∀ a ∈ arguments, a.Named) ∧
      match current with
      | none => closers = []
      | some a => a.Named s (closers ≠ [])

theorem classify_eq_identifier {items : List Item} (h : classify items = .identifier) :
    ∃ text, items = [.token .name text] := by
  simp only [classify] at h
  split_ifs at h
  split at h
  case h_4 => exact ⟨_, rfl⟩
  all_goals (try split_ifs at h) <;> simp at h

theorem OpenArgument.Named.close {b : Prop} {a : OpenArgument} (h : a.Named s b) :
    (a.close s).Named := by
  intro hshape
  obtain ⟨text, hitems⟩ := classify_eq_identifier hshape
  obtain ⟨hname, hslice⟩ := h.name text hitems
  simpa [OpenArgument.close, hslice] using hname

theorem OpenArgument.Named.of_group {b : Prop} {a : OpenArgument} (h : .group ∈ a.items) :
    a.Named s b where
  items := List.ne_nil_of_mem h
  group _ := h
  name text hitems := by simp [hitems] at h

theorem OpenArgument.Named.extend_token {current : Option OpenArgument} {b : Prop}
    (hs : token.Stands s) (hterminal : token.terminal = some t)
    (hcurrent : ∀ a, current = some a → a.items ≠ []) (hb : ¬ b) :
    (extend current token [.token t token.text]).Named s b := by
  cases current with
  | none =>
      refine ⟨by simp [extend], fun h => absurd h hb, fun text hitems => ?_⟩
      obtain ⟨rfl, rfl⟩ : t = .name ∧ token.text = text := by simpa [extend] using hitems
      exact ⟨hs.name hterminal, hs.slice⟩
  | some a =>
      refine ⟨by simp [extend], fun h => absurd h hb, fun text hitems => ?_⟩
      have hlength := congrArg List.length hitems
      have := List.length_pos_iff.2 (hcurrent a rfl)
      simp only [extend, List.length_append, List.length_singleton] at hlength
      omega

/-- What a token does to a state that it can be read in. -/
inductive HeadState.Steps (s : List Char) (token : Token) (t : Terminal) : HeadState → HeadState → Prop
  | start (ht : t = .name) : Steps s token t .start (.chain ⟨String.ofList token.text, []⟩)
  | point (head : Head) (ht : t = .dot) : Steps s token t (.chain head) (.member head)
  | call (head : Head) (ht : t = .openParen) : Steps s token t (.chain head) (.call head [] none [])
  | member (head : Head) (ht : t = .name) : Steps s token t (.member head)
      (.chain ⟨head.callee, head.ops ++ [.member (String.ofList token.text)]⟩)
  | last (head : Head) (arguments : List Argument) (a : OpenArgument) (ht : t = .closeParen) :
      Steps s token t (.call head arguments (some a) [])
        (.chain ⟨head.callee, head.ops ++ [.call (arguments ++ [a.close s])]⟩)
  | empty (head : Head) (ht : t = .closeParen) :
      Steps s token t (.call head [] none []) (.chain ⟨head.callee, head.ops ++ [.call []]⟩)
  | comma (head : Head) (arguments : List Argument) (a : OpenArgument) (ht : t = .comma) :
      Steps s token t (.call head arguments (some a) []) (.call head (arguments ++ [a.close s]) none [])
  | group (head : Head) (arguments : List Argument) (current : Option OpenArgument) (closer : Terminal)
      (ht : t.closer? = some closer) : Steps s token t (.call head arguments current [])
        (.call head arguments (some (extend current token [.group])) [closer])
  | item (head : Head) (arguments : List Argument) (current : Option OpenArgument)
      (ht : t.closer? = none) (hclose : t.isCloser = false) : Steps s token t
        (.call head arguments current [])
        (.call head arguments (some (extend current token [.token t token.text])) [])
  | opens (head : Head) (arguments : List Argument) (current : Option OpenArgument)
      (inner closer : Terminal) (closers : List Terminal) (ht : t.closer? = some inner) :
      Steps s token t (.call head arguments current (closer :: closers))
        (.call head arguments (some (extend current token [])) (inner :: closer :: closers))
  | closes (head : Head) (arguments : List Argument) (current : Option OpenArgument)
      (closer : Terminal) (closers : List Terminal) (ht : t = closer) :
      Steps s token t (.call head arguments current (closer :: closers))
        (.call head arguments (some (extend current token [])) closers)
  | inside (head : Head) (arguments : List Argument) (current : Option OpenArgument)
      (closer : Terminal) (closers : List Terminal) (ht : t.closer? = none) (hclose : t.isCloser = false) :
      Steps s token t (.call head arguments current (closer :: closers))
        (.call head arguments (some (extend current token [])) (closer :: closers))

theorem HeadState.steps_of_step? (h : state.step? s token t = some state') :
    state.Steps s token t state' := by
  cases state with
  | start =>
      simp only [HeadState.step?] at h
      split_ifs at h with ht
      exact Option.some.inj h ▸ .start ht
  | chain head =>
      simp only [HeadState.step?] at h
      split at h
      · exact Option.some.inj h ▸ .point head rfl
      · exact Option.some.inj h ▸ .call head rfl
      · simp at h
  | member head =>
      simp only [HeadState.step?] at h
      split_ifs at h with ht
      exact Option.some.inj h ▸ .member head ht
  | call head arguments current closers =>
      cases closers with
      | nil =>
          simp only [HeadState.step?] at h
          split at h
          · exact Option.some.inj h ▸ .last head arguments _ rfl
          · split_ifs at h with hempty
            obtain rfl := List.isEmpty_iff.1 hempty
            exact Option.some.inj h ▸ .empty head rfl
          · exact Option.some.inj h ▸ .comma head arguments _ rfl
          · simp at h
          · split at h
            · rename_i closer ht
              exact Option.some.inj h ▸ .group head arguments _ closer ht
            · rename_i ht
              split_ifs at h with hclose
              exact Option.some.inj h ▸ .item head arguments _ ht (Bool.not_eq_true _ ▸ hclose)
      | cons closer closers =>
          simp only [HeadState.step?] at h
          split at h
          · rename_i inner ht
            exact Option.some.inj h ▸ .opens head arguments current inner closer closers ht
          · rename_i ht
            split_ifs at h with hcloser hclose
            · exact Option.some.inj h ▸ .closes head arguments current closer closers hcloser
            · exact Option.some.inj h ▸ .inside head arguments current closer closers ht
                (Bool.not_eq_true _ ▸ hclose)

theorem Head.Named.append {op : Op} (hhead : head.Named) (hop : op.Named) :
    Head.Named ⟨head.callee, head.ops ++ [op]⟩ := by
  intro op' hmem
  rcases List.mem_append.1 hmem with hmem | hmem
  · exact hhead op' hmem
  · rwa [List.mem_singleton.1 hmem]

theorem OpenArgument.Named.append_close {b : Prop} {arguments : List Argument} {a : OpenArgument}
    (ha : a.Named s b) (harguments : ∀ a ∈ arguments, a.Named) :
    ∀ a' ∈ arguments ++ [a.close s], a'.Named := by
  intro a' hmem
  rcases List.mem_append.1 hmem with hmem | hmem
  · exact harguments a' hmem
  · rw [List.mem_singleton.1 hmem]
    exact ha.close

theorem HeadState.Named.extend {arguments : List Argument} {current : Option OpenArgument}
    {closer : Terminal} {closers : List Terminal}
    (h : HeadState.Named s (.call head arguments current (closer :: closers))) (closers' : List Terminal) :
    HeadState.Named s (.call head arguments (some (Script.extend current token [])) closers') := by
  obtain ⟨hhead, harguments, hcurrent⟩ := h
  cases current with
  | none => simp at hcurrent
  | some a =>
      refine ⟨hhead, harguments, .of_group ?_⟩
      simpa [Script.extend] using hcurrent.group (by simp)

theorem HeadState.Steps.named (h : state.Steps s token t state') (hs : token.Stands s)
    (hterminal : token.terminal = some t) (hstate : state.Named s) : state'.Named s := by
  cases h with
  | start => exact fun op hop => by simp at hop
  | point => exact hstate
  | call => exact ⟨hstate, by simp, rfl⟩
  | member => exact Head.Named.append hstate trivial
  | last => exact hstate.1.append (hstate.2.2.append_close hstate.2.1)
  | empty => exact hstate.1.append fun a ha => by simp at ha
  | comma => exact ⟨hstate.1, hstate.2.2.append_close hstate.2.1, rfl⟩
  | group head arguments current =>
      refine ⟨hstate.1, hstate.2.1, .of_group ?_⟩
      cases current <;> simp [extend]
  | item head arguments current =>
      have hitems : ∀ a, current = some a → a.items ≠ [] := by
        rintro a rfl
        exact hstate.2.2.items
      exact ⟨hstate.1, hstate.2.1, .extend_token hs hterminal hitems (by simp)⟩
  | opens | closes | inside => exact hstate.extend _

theorem named_of_readTokens (h : state.Named s) (htokens : ∀ token ∈ tokens, token.Stands s)
    (hread : readTokens s state last tokens = .ok head) : head.Named := by
  induction tokens generalizing state last with
  | nil =>
      cases state with
      | chain head' =>
          simp only [readTokens] at hread
          split_ifs at hread
          obtain rfl := Except.ok.inj hread
          exact h
      | start | member | call => simp [readTokens] at hread
  | cons token tokens ih =>
      obtain ⟨htoken, htokens⟩ := List.forall_mem_cons.1 htokens
      simp only [readTokens] at hread
      split at hread
      · simp at hread
      · rename_i hterminal
        split at hread
        · rename_i hstep
          exact ih ((HeadState.steps_of_step? hstep).named htoken hterminal h) htokens hread
        · simp at hread

/-- The names among the arguments of a head. -/
theorem named_of_readHeadText (h : readHeadText s = .ok head) : head.Named :=
  named_of_readTokens (show HeadState.Named s .start from trivial) tokens_stand h

def HeadState.head? : HeadState → Option Head
  | .start => none
  | .chain head | .member head | .call head _ _ _ => some head

theorem HeadState.Steps.callee (h : state.Steps s token t state') (hhead : state.head? = some head) :
    ∃ head', state'.head? = some head' ∧ head'.callee = head.callee := by
  cases h with
  | start => simp [HeadState.head?] at hhead
  | _ =>
      obtain rfl := Option.some.inj hhead
      exact ⟨_, rfl, rfl⟩

theorem callee_of_readTokens {head head' : Head} (h : state.head? = some head)
    (hread : readTokens s state last tokens = .ok head') : head'.callee = head.callee := by
  induction tokens generalizing state last head with
  | nil =>
      cases state with
      | chain head'' =>
          obtain rfl := Option.some.inj h
          simp only [readTokens] at hread
          split_ifs at hread
          rw [Except.ok.inj hread]
      | start | member | call => simp [readTokens] at hread
  | cons token tokens ih =>
      simp only [readTokens] at hread
      split at hread
      · simp at hread
      · split at hread
        · rename_i hstep
          obtain ⟨head'', hnext, hsame⟩ := (HeadState.steps_of_step? hstep).callee h
          rw [ih hnext hread, hsame]
        · simp at hread

/-- A name at the beginning of a head is its callee, from which the rest of the head is read. -/
theorem readHeadText_name (ha : IsName a) (hr : Ends r.head?) :
    readHeadText (a ++ r) = readTokens (a ++ r) (.chain ⟨String.ofList a, []⟩) 0
      (tokensFrom a.length 0 (some .name) 0 r) := by
  have hterminal := terminal?_name ha hr
  obtain ⟨c, a, rfl, hc, -⟩ := ha
  rw [readHeadText, Script.tokens]
  rw [List.cons_append] at hterminal ⊢
  rw [tokensFrom, (plain_of_isNameStart hc).1]
  simp only [Option.any_none, Bool.and_false, tokenAt, Bool.false_and, Bool.false_eq_true, if_false,
    hterminal, List.length_cons, List.take_succ_cons, List.take_left, readTokens, HeadState.step?,
    if_true, Nat.add_sub_cancel]
  rw [tokensFrom_pending, List.drop_left]
  simp [depthAfter, Terminal.closer?, Terminal.isCloser, Nat.add_comm]

theorem callee_of_readHeadText (ha : IsName a) (hr : Ends r.head?)
    (h : readHeadText (a ++ r) = .ok head) : head.callee = String.ofList a := by
  rw [readHeadText_name ha hr] at h
  exact callee_of_readTokens rfl h

end CssExtract.Script
