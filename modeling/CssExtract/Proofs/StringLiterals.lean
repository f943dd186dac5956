import CssExtract.Eval.Evaluator
import CssExtract.Proofs.CallText
import CssExtract.Proofs.Exec

namespace CssExtract.Script

open Text

variable {p : Char → Option Char} {c e q x y : Char} {s t : List Char}

def escapedBy (p : Char → Option Char) (s : List Char) : List Char :=
  s.flatMap fun c => (p c).elim [c] fun e => ['\\', e]

theorem escapedBy_cons_none (h : p x = none) : escapedBy p (x :: s) = x :: escapedBy p s := by
  simp [escapedBy, h]

theorem escapedBy_cons_some (h : p x = some y) :
    escapedBy p (x :: s) = '\\' :: y :: escapedBy p s := by
  simp [escapedBy, h]

theorem unescape_cons (h : x ≠ '\\') : unescape e c (x :: s) = x :: unescape e c s := by
  cases s <;> simp [unescape, h]

theorem unescape_pair : unescape e c ('\\' :: e :: s) = c :: unescape e c s := by
  simp [unescape]

theorem unescape_backslash (h : s.head? ≠ some e) :
    unescape e c ('\\' :: s) = '\\' :: unescape e c s := by
  cases s with
  | nil => simp [unescape]
  | cons x s => simp_all [unescape]

structure Escaping (p : Char → Option Char) : Prop where
  backslash : p '\\' = some '\\'
  injective : ∀ {x y e}, p x = some e → p y = some e → x = y

def without (p : Char → Option Char) (c x : Char) : Option Char := if x = c then none else p x

@[simp] theorem without_self (p : Char → Option Char) (c : Char) : without p c c = none := by
  simp [without]

theorem without_of_ne (h : x ≠ c) : without p c x = p x := by
  simp [without, h]

theorem Escaping.without (h : Escaping p) (hc : c ≠ '\\') : Escaping (without p c) where
  backslash := by rw [without_of_ne hc.symm, h.backslash]
  injective {x y e} hx hy := by
    by_cases hxc : x = c
    · simp [hxc] at hx
    by_cases hyc : y = c
    · simp [hyc] at hy
    rw [without_of_ne hxc] at hx
    rw [without_of_ne hyc] at hy
    exact h.injective hx hy

/-- No letter follows a backslash of the text that stands for another character there. -/
def Unmistakable (p : Char → Option Char) (e : Char) (s : List Char) : Prop :=
  p e = none → ¬ ['\\', e] <:+: s

theorem Unmistakable.tail (h : Unmistakable p e (x :: s)) : Unmistakable p e s :=
  fun he hinside => h he (List.infix_cons hinside)

theorem head?_escapedBy (h : (escapedBy p s).head? = some e) (he : e ≠ '\\') :
    ∃ t, s = e :: t ∧ p e = none := by
  cases s with
  | nil => simp [escapedBy] at h
  | cons x s =>
      cases hx : p x with
      | none =>
          rw [escapedBy_cons_none hx] at h
          obtain rfl := Option.some.inj h
          exact ⟨s, rfl, hx⟩
      | some y =>
          rw [escapedBy_cons_some hx] at h
          exact absurd (Option.some.inj h).symm he

/-- Undoing the letters for one character leaves the others as they are. -/
theorem unescape_escapedBy (hp : Escaping p) (hc : p c = some e) (he : e ≠ '\\')
    (h : Unmistakable p e s) : unescape e c (escapedBy p s) = escapedBy (without p c) s := by
  induction s with
  | nil => rfl
  | cons x s ih =>
      have ih := ih h.tail
      cases hx : p x with
      | none =>
          have hback : x ≠ '\\' := by
            rintro rfl
            simp [hp.backslash] at hx
          have hne : x ≠ c := by
            rintro rfl
            simp [hc] at hx
          rw [escapedBy_cons_none hx, unescape_cons hback, ih,
            escapedBy_cons_none (by rw [without_of_ne hne, hx])]
      | some y =>
          rw [escapedBy_cons_some hx]
          by_cases hye : y = e
          · subst hye
            obtain rfl := hp.injective hx hc
            rw [unescape_pair, ih, escapedBy_cons_none (by simp)]
          have hne : x ≠ c := by
            rintro rfl
            exact hye (Option.some.inj (hx.symm.trans hc))
          rw [escapedBy_cons_some ((without_of_ne hne).trans hx), ← ih,
            unescape_backslash (by simpa using hye)]
          congr 1
          by_cases hback : y = '\\'
          · subst hback
            obtain rfl := hp.injective hx hp.backslash
            refine unescape_backslash fun hhead => ?_
            obtain ⟨t, rfl, hnone⟩ := head?_escapedBy hhead he
            exact h hnone (List.IsPrefix.isInfix (by simp))
          · exact unescape_cons hback

/-- Backslashes are undone last, when nothing else is escaped any more. -/
theorem unescape_escapedBy_backslash (hp : p '\\' = some '\\')
    (h : ∀ x ∈ s, x ≠ '\\' → p x = none) : unescape '\\' '\\' (escapedBy p s) = s := by
  induction s with
  | nil => rfl
  | cons x s ih =>
      obtain ⟨hx, hs⟩ := List.forall_mem_cons.1 h
      by_cases hback : x = '\\'
      · subst hback
        rw [escapedBy_cons_some hp, unescape_pair, ih hs]
      · rw [escapedBy_cons_none (hx hback), unescape_cons hback, ih hs]

theorem mem_unescape (h : x ∈ unescape e c t) : x ∈ t ∨ x = c := by
  fun_induction unescape e c t with
  | case1 s ih =>
      rcases List.mem_cons.1 h with rfl | h
      · exact .inr rfl
      · exact (ih h).imp_left fun h => by simp [h]
  | case2 y s hy ih =>
      rcases List.mem_cons.1 h with rfl | h
      · exact .inl (by simp)
      · exact (ih h).imp_left fun h => List.mem_cons_of_mem _ h
  | case3 y s hy ih =>
      rcases List.mem_cons.1 h with rfl | h
      · exact .inl (by simp)
      · exact (ih h).imp_left fun h => List.mem_cons_of_mem _ h
  | case4 => simp at h

theorem notMem_escapedBy (hx : (p x).isSome) (hback : x ≠ '\\') (hletter : ∀ y, p y ≠ some x) :
    x ∉ escapedBy p s := by
  intro h
  obtain ⟨y, -, hy⟩ := List.mem_flatMap.1 h
  cases hpy : p y with
  | none =>
      obtain rfl : x = y := by simpa [hpy] using hy
      simp [hpy] at hx
  | some e =>
      rw [hpy] at hy
      rcases List.mem_cons.1 hy with rfl | hy
      · exact hback rfl
      · obtain rfl := List.mem_singleton.1 hy
        exact hletter y hpy

theorem count_unescape_of_ne (hc : x ≠ c) (he : x ≠ e) (hback : x ≠ '\\') :
    (unescape e c t).count x = t.count x := by
  fun_induction unescape e c t with
  | case1 s ih => simp [ih, hc.symm, he.symm, hback.symm]
  | case2 y s hy ih => simp [List.count_cons, ih]
  | case3 y s hy ih => simp [List.count_cons, ih]
  | case4 => rfl

/-- A letter behind a backslash of the text is taken for the character that it stands for. -/
def Overcounts (p : Char → Option Char) (e c : Char) (s : List Char) : Prop :=
  s.count c ≤ (unescape e c (escapedBy p s)).count c ∧
    (p e = none → ['\\', e] <:+: s → s.count c < (unescape e c (escapedBy p s)).count c)

theorem infix_of_cons_of_ne (hx : x ≠ '\\') (h : ['\\', e] <:+: x :: s) : ['\\', e] <:+: s :=
  (List.infix_cons_iff.1 h).resolve_left fun hfront => hx (List.cons_prefix_cons.1 hfront).1.symm

theorem Overcounts.plain (h : Overcounts p e c s) (hx : p x = none) (hback : x ≠ '\\') (hxc : x ≠ c) :
    Overcounts p e c (x :: s) := by
  rw [Overcounts, escapedBy_cons_none hx, unescape_cons hback, List.count_cons_of_ne hxc,
    List.count_cons_of_ne hxc]
  exact ⟨h.1, fun hnone hinside => h.2 hnone (infix_of_cons_of_ne hback hinside)⟩

theorem Overcounts.escaped (h : Overcounts p e c s) (hp : Escaping p) (hc : p c = some e) (hback : c ≠ '\\')
    (hletter : ∀ y, p y ≠ some c) (hx : p x = some y) (hxback : x ≠ '\\') :
    Overcounts p e c (x :: s) := by
  have hinside : ['\\', e] <:+: x :: s → ['\\', e] <:+: s := infix_of_cons_of_ne hxback
  rw [Overcounts, escapedBy_cons_some hx]
  by_cases hye : y = e
  · subst hye
    obtain rfl := hp.injective hx hc
    rw [unescape_pair, List.count_cons_self, List.count_cons_self]
    exact ⟨Nat.succ_le_succ h.1, fun hnone hin => Nat.succ_lt_succ (h.2 hnone (hinside hin))⟩
  · have hyback : y ≠ '\\' := by
      rintro rfl
      exact hxback (hp.injective hx hp.backslash)
    have hxc : x ≠ c := by
      rintro rfl
      exact hye (Option.some.inj (hx.symm.trans hc))
    have hyc : y ≠ c := by
      rintro rfl
      exact hletter x hx
    rw [unescape_backslash (by simpa using hye), unescape_cons hyback, List.count_cons_of_ne hback.symm,
      List.count_cons_of_ne hyc, List.count_cons_of_ne hxc]
    exact ⟨h.1, fun hnone hin => h.2 hnone (hinside hin)⟩

theorem Overcounts.backslash (hp : Escaping p) (he : e ≠ '\\') (hce : e ≠ c) (hback : c ≠ '\\')
    (h : Overcounts p e c s) (htail : ∀ t, s = e :: t → Overcounts p e c t) :
    Overcounts p e c ('\\' :: s) := by
  rw [Overcounts, escapedBy_cons_some hp.backslash, unescape_backslash (by simpa using he.symm),
    List.count_cons_of_ne hback.symm, List.count_cons_of_ne hback.symm]
  -- of the two backslashes that are written, a letter may follow the second
  by_cases hhead : (escapedBy p s).head? = some e
  · obtain ⟨t, rfl, hnone⟩ := head?_escapedBy hhead he
    rw [escapedBy_cons_none hnone, unescape_pair, List.count_cons_of_ne hce, List.count_cons_self]
    have hle := (htail t rfl).1
    exact ⟨by omega, fun _ _ => by omega⟩
  · rw [unescape_backslash hhead, List.count_cons_of_ne hback.symm]
    refine ⟨h.1, fun hnone hinside => h.2 hnone ?_⟩
    rcases List.infix_cons_iff.1 hinside with hfront | hinside
    · obtain ⟨-, t, rfl⟩ := List.cons_prefix_cons.1 hfront
      exact absurd (by simp [escapedBy_cons_none hnone]) hhead
    · exact hinside

theorem overcounts (hp : Escaping p) (hc : p c = some e) (he : e ≠ '\\') (hce : e ≠ c) (hback : c ≠ '\\')
    (hletter : ∀ y, p y ≠ some c) (s : List Char) : Overcounts p e c s := by
  induction hn : s.length using Nat.strongRecOn generalizing s with
  | _ n ih =>
    cases s with
    | nil => simp [Overcounts]
    | cons x s =>
        have hs : Overcounts p e c s := ih s.length (by simp [← hn]) s rfl
        by_cases hxback : x = '\\'
        · subst hxback
          refine .backslash hp he hce hback hs fun t ht => ih t.length ?_ t rfl
          simp only [← hn, ht, List.length_cons]
          omega
        cases hx : p x with
        | none =>
            have hxc : x ≠ c := by
              rintro rfl
              simp [hc] at hx
            exact hs.plain hx hxback hxc
        | some y => exact hs.escaped hp hc hback hletter hx hxback

def letterOf (c : Char) : Option Char :=
  if c = '\\' then some '\\'
  else if c = '\n' then some 'n'
  else if c = '\r' then some 'r'
  else if c = '\t' then some 't'
  else none

def quotedLetterOf (q c : Char) : Option Char := if c = q then some q else letterOf c

theorem letterOf_cases (h : letterOf c = some e) :
    c = '\\' ∧ e = '\\' ∨ c = '\n' ∧ e = 'n' ∨ c = '\r' ∧ e = 'r' ∨ c = '\t' ∧ e = 't' := by
  simp only [letterOf] at h
  split_ifs at h with hback hline hreturn htab
  all_goals
    obtain rfl := Option.some.inj h
    simp [*]

theorem letterOf_quote (hq : isQuote q = true) : letterOf q = none := by
  simp only [isQuote, Bool.or_eq_true, decide_eq_true_eq] at hq
  rcases hq with rfl | rfl <;> decide

theorem escaping_letterOf : Escaping letterOf where
  backslash := rfl
  injective hx hy := by
    rcases letterOf_cases hx with ⟨rfl, rfl⟩ | ⟨rfl, rfl⟩ | ⟨rfl, rfl⟩ | ⟨rfl, rfl⟩ <;>
      rcases letterOf_cases hy with ⟨rfl, he⟩ | ⟨rfl, he⟩ | ⟨rfl, he⟩ | ⟨rfl, he⟩ <;>
        first | rfl | exact absurd he (by decide)

theorem escaping_quotedLetterOf (hq : isQuote q = true) : Escaping (quotedLetterOf q) where
  backslash := by rw [quotedLetterOf, if_neg (ne_backslash_of_isQuote hq).symm]; rfl
  injective {x y e} hx hy := by
    have hne {z : Char} (hz : letterOf z = some q) : False := by
      simp only [isQuote, Bool.or_eq_true, decide_eq_true_eq] at hq
      rcases letterOf_cases hz with ⟨-, rfl⟩ | ⟨-, rfl⟩ | ⟨-, rfl⟩ | ⟨-, rfl⟩ <;> simp at hq
    simp only [quotedLetterOf] at hx hy
    split_ifs at hx hy with hxq hyq hyq
    · rw [hxq, hyq]
    · exact (hne (hy.trans hx.symm)).elim
    · exact (hne (hx.trans hy.symm)).elim
    · exact escaping_letterOf.injective hx hy

theorem without_quotedLetterOf (hq : isQuote q = true) : without (quotedLetterOf q) q = letterOf := by
  funext x
  by_cases hx : x = q
  · rw [hx, without_self, letterOf_quote hq]
  · rw [without_of_ne hx, quotedLetterOf, if_neg hx]

theorem flatMap_escapeLiteral (q : Char) (s : List Char) :
    s.flatMap (escapeLiteral q) = escapedBy (quotedLetterOf q) s := by
  have hsame (c : Char) : escapeLiteral q c = (quotedLetterOf q c).elim [c] fun e => ['\\', e] := by
    simp only [escapeLiteral, quotedLetterOf, letterOf]
    split_ifs <;> simp_all
  rw [escapedBy, funext hsame]

theorem unescape_quotes (hq : isQuote q = true) (s : List Char) :
    unescape q q (s.flatMap (escapeLiteral q)) = escapedBy letterOf s := by
  have hself : quotedLetterOf q q = some q := if_pos rfl
  rw [flatMap_escapeLiteral, ← without_quotedLetterOf hq]
  refine unescape_escapedBy (escaping_quotedLetterOf hq) hself (ne_backslash_of_isQuote hq) ?_
  intro hnone
  simp [hself] at hnone

theorem letterOf_ne (h : c ∈ ['\n', '\r', '\t']) (y : Char) : letterOf y ≠ some c := by
  intro hy
  rcases letterOf_cases hy with ⟨-, rfl⟩ | ⟨-, rfl⟩ | ⟨-, rfl⟩ | ⟨-, rfl⟩ <;> simp at h

theorem notMem_escapedBy_letterOf (h : c ∈ ['\n', '\r', '\t']) : c ∉ escapedBy letterOf s := by
  refine notMem_escapedBy ?_ ?_ (letterOf_ne h)
  all_goals
    simp only [List.mem_cons, List.not_mem_nil, or_false] at h
    rcases h with rfl | rfl | rfl <;> decide

theorem unescape_newlines (h : ¬ ['\\', 'n'] <:+: s) :
    unescape 'n' '\n' (escapedBy letterOf s) = escapedBy (without letterOf '\n') s :=
  unescape_escapedBy escaping_letterOf rfl (by decide) fun _ => h

theorem count_newlines (h : ['\\', 'n'] <:+: s) :
    s.count '\n' < (unescape 'n' '\n' (escapedBy letterOf s)).count '\n' :=
  (overcounts escaping_letterOf rfl (by decide) (by decide) (by decide) (letterOf_ne (by simp)) s).2 rfl h

theorem escaping_without_newline : Escaping (without letterOf '\n') :=
  escaping_letterOf.without (by decide)

theorem without_newline_ne (h : c ∈ ['\n', '\r', '\t']) (y : Char) :
    without letterOf '\n' y ≠ some c := by
  by_cases hy : y = '\n'
  · simp [hy]
  · rw [without_of_ne hy]
    exact letterOf_ne h y

theorem argument_unescaped_iff :
    unescape '\\' '\\' (unescape 't' '\t' (unescape 'n' '\n' (escapedBy letterOf s))) = s ↔
      '\r' ∉ s ∧ ¬ ['\\', 'n'] <:+: s ∧ ¬ ['\\', 't'] <:+: s := by
  constructor
  · intro h
    have hreturn : '\r' ∉ s := fun hmem => by
      rw [← h] at hmem
      have := (((mem_unescape hmem).resolve_right (by decide)))
      have := (mem_unescape this).resolve_right (by decide)
      exact notMem_escapedBy_letterOf (by simp) ((mem_unescape this).resolve_right (by decide))
    have hnewline : ¬ ['\\', 'n'] <:+: s := fun hinside => by
      have hlt := count_newlines hinside
      have hsame := congrArg (List.count '\n') h
      rw [count_unescape_of_ne (by decide) (by decide) (by decide),
        count_unescape_of_ne (by decide) (by decide) (by decide)] at hsame
      omega
    refine ⟨hreturn, hnewline, fun hinside => ?_⟩
    rw [unescape_newlines hnewline] at h
    have hlt := (overcounts escaping_without_newline (c := '\t') (e := 't') rfl (by decide) (by decide)
      (by decide) (without_newline_ne (by simp)) s).2 rfl hinside
    have hsame := congrArg (List.count '\t') h
    rw [count_unescape_of_ne (by decide) (by decide) (by decide)] at hsame
    omega
  · rintro ⟨hreturn, hnewline, htab⟩
    rw [unescape_newlines hnewline,
      unescape_escapedBy escaping_without_newline rfl (by decide) fun _ => htab]
    refine unescape_escapedBy_backslash rfl fun x hx hback => ?_
    have hxreturn : x ≠ '\r' := fun h => hreturn (h ▸ hx)
    simp +contextual [without, letterOf, hback, hxreturn]

theorem expression_unescaped_iff :
    unescape '\\' '\\' (unescape 'n' '\n' (escapedBy letterOf s)) = s ↔
      '\r' ∉ s ∧ '\t' ∉ s ∧ ¬ ['\\', 'n'] <:+: s := by
  constructor
  · intro h
    have hlost {x : Char} (hx : x ∈ ['\r', '\t']) : x ∉ s := fun hmem => by
      have hmem' : x ∈ ['\n', '\r', '\t'] := by simp_all
      have hne : x ≠ '\\' ∧ x ≠ '\n' := by
        simp only [List.mem_cons, List.not_mem_nil, or_false] at hx
        rcases hx with rfl | rfl <;> decide
      rw [← h] at hmem
      have := (mem_unescape hmem).resolve_right hne.1
      exact notMem_escapedBy_letterOf hmem' ((mem_unescape this).resolve_right hne.2)
    refine ⟨hlost (by simp), hlost (by simp), fun hinside => ?_⟩
    have hlt := count_newlines hinside
    have hsame := congrArg (List.count '\n') h
    rw [count_unescape_of_ne (by decide) (by decide) (by decide)] at hsame
    omega
  · rintro ⟨hreturn, htab, hnewline⟩
    rw [unescape_newlines hnewline]
    refine unescape_escapedBy_backslash rfl fun x hx hback => ?_
    have hxreturn : x ≠ '\r' := fun h => hreturn (h ▸ hx)
    have hxtab : x ≠ '\t' := fun h => htab (h ▸ hx)
    simp [without, letterOf, hback, hxreturn, hxtab]

theorem inner_printString (q : Char) (s : List Char) :
    inner (printString q s) = s.flatMap (escapeLiteral q) := by
  simp [inner, printString]

theorem unquoteArgument_printString (hq : isQuote q = true) :
    unquoteArgument (printString q s) = s ↔
      '\r' ∉ s ∧ ¬ ['\\', 'n'] <:+: s ∧ ¬ ['\\', 't'] <:+: s := by
  rw [unquoteArgument, inner_printString, show (printString q s).head?.getD '"' = q from rfl,
    unescape_quotes hq]
  exact argument_unescaped_iff

theorem unquote_printString (hq : isQuote q = true) :
    Eval.Evaluator.unquote (printString q s) = s ↔
      '\r' ∉ s ∧ '\t' ∉ s ∧ ¬ ['\\', 'n'] <:+: s := by
  rw [Eval.Evaluator.unquote, inner_printString, show (printString q s).head?.getD '"' = q from rfl,
    unescape_quotes hq]
  exact expression_unescaped_iff

theorem readTokens_step {state state' : HeadState} {token : Token} {terminal : Terminal}
    (ht : token.terminal = some terminal) (hstep : state.step? s token terminal = some state')
    (last : Nat) (rest : List Token) :
    readTokens s state last (token :: rest) = readTokens s state' token.start rest := by
  simp only [readTokens, ht, hstep]

theorem readHeadText_literal (hq : isQuote q = true) (s : List Char) {tag : List Char}
    (htag : IsName tag) :
    readHeadText (tag ++ parenthesised (printString q s)) =
      .ok ⟨String.ofList tag, [.call [⟨String.ofList (printString q s),
        .constant (.string (String.ofList (unquoteArgument (printString q s))))⟩]]⟩ := by
  have hterminal := terminal?_printed hq s [')']
  generalize hlit : printString q s = literal at *
  obtain ⟨a, rfl⟩ : ∃ a, literal = q :: a := ⟨_, hlit.symm⟩
  have hgap : isGap q = false := by
    simp only [isQuote, Bool.or_eq_true, decide_eq_true_eq] at hq
    rcases hq with rfl | rfl <;> decide
  have hslice : slice (tag ++ parenthesised (q :: a)) ⟨tag.length + 1, tag.length + 1 + (q :: a).length⟩ =
      q :: a := by
    have htext : tag ++ parenthesised (q :: a) = (tag ++ ['(']) ++ ((q :: a) ++ [')']) := by
      simp [parenthesised]
    rw [slice, htext, List.drop_left' (by simp), List.take_left' (by simp)]
  have hclassify : classify [.token .string (q :: a)] =
      .constant (.string (String.ofList (unquoteArgument (q :: a)))) := rfl
  rw [readHeadText_name htag (by simp [parenthesised, Ends]; decide)]
  generalize htext : tag ++ parenthesised (q :: a) = text at *
  rw [parenthesised, List.cons_append, tokensFrom_bracket rfl (by decide), List.cons_append,
    tokensFrom_token (.inl (by decide)) hgap (by simpa using hterminal),
    show depthAfter (depthAfter 0 .openParen) .string = 1 from rfl, tokensFrom_bracket rfl (by decide),
    readTokens_step rfl rfl, readTokens_step rfl rfl, readTokens_step rfl rfl]
  simp only [tokensFrom, readTokens, List.nil_append, List.isEmpty_cons, OpenArgument.close, extend,
    Token.stop, hslice, hclassify, Bool.false_eq_true, if_false]

theorem trim_printString (hq : isQuote q = true) (s : List Char) :
    trim (printString q s) = printString q s := by
  have hblank : isBlank q = false := by
    simp only [isQuote, Bool.or_eq_true, decide_eq_true_eq] at hq
    rcases hq with rfl | rfl <;> decide
  rw [trim, printString, List.cons_append, trimStart_eq_self hblank, trimEnd, List.reverse_cons,
    List.reverse_append, List.reverse_singleton, List.singleton_append, List.cons_append,
    List.dropWhile_cons_of_neg (by simp [hblank])]
  simp

theorem exec_evaluate_literal (hq : isQuote q = true) (s : List Char) (e : Eval.Evaluator) :
    exec (Eval.Evaluator.evaluate (.raw (String.ofList (printString q s)))) e =
      (.ok (.scalar (.string (String.ofList (Eval.Evaluator.unquote (printString q s))))), e) := by
  have hnumber : signedNumberLength? (printString q s) = none :=
    signedNumberLength?_quote hq (s.flatMap (escapeLiteral q) ++ [q])
  have hstring : stringLength? (printString q s) = some (printString q s).length := by
    have htail := stringTail?_printed hq s []
    simp only [isQuote, Bool.or_eq_true, decide_eq_true_eq] at hq
    simp only [printString, List.cons_append, stringLength?, htail]
    rcases hq with rfl | rfl <;> simp
  simp only [Eval.Evaluator.evaluate, exec_bind, exec_get, Eval.Evaluator.evalNode,
    Eval.Evaluator.readRaw, String.toList_ofList, trim_printString hq, hnumber, hstring]
  simp

/-- A printed literal denotes a string in both places where it is read, and it is the string that it
was printed from but for the characters that are not told from their escapes there. -/
theorem string_read_back (s : String) (q : Char) (hq : isQuote q = true) (e : Eval.Evaluator) :
    ∃ v w,
      readHeadText ("styled(" ++ (Node.string s q).code ++ ")").toList =
        .ok ⟨"styled", [.call [⟨(Node.string s q).code, .constant (.string v)⟩]]⟩ ∧
      exec (Eval.Evaluator.evaluate (.raw (Node.string s q).code)) e = (.ok (.scalar (.string w)), e) ∧
      (v = s ↔ '\r' ∉ s.toList ∧ ¬ ['\\', 'n'] <:+: s.toList ∧ ¬ ['\\', 't'] <:+: s.toList) ∧
      (w = s ↔ '\r' ∉ s.toList ∧ '\t' ∉ s.toList ∧ ¬ ['\\', 'n'] <:+: s.toList) := by
  have hcode : (Node.string s q).code = String.ofList (printString q s.toList) := by
    simp [Node.code, Node.print]
  have hhead : ("styled(" ++ (Node.string s q).code ++ ")").toList =
      "styled".toList ++ parenthesised (printString q s.toList) := by
    simp [hcode, parenthesised]
  refine ⟨String.ofList (unquoteArgument (printString q s.toList)),
    String.ofList (Eval.Evaluator.unquote (printString q s.toList)), ?_, ?_, ?_, ?_⟩
  · rw [hhead, hcode, readHeadText_literal hq _ (by decide +kernel), String.ofList_toList]
  · rw [hcode, exec_evaluate_literal hq]
  · rw [← unquoteArgument_printString hq, ← String.toList_inj, String.toList_ofList]
  · rw [← unquote_printString hq, ← String.toList_inj, String.toList_ofList]

def ReadBack (s : String) (q : Char) (e : Eval.Evaluator) : Prop :=
  readHeadText ("styled(" ++ (Node.string s q).code ++ ")").toList =
      .ok ⟨"styled", [.call [⟨(Node.string s q).code, .constant (.string s)⟩]]⟩ ∧
    exec (Eval.Evaluator.evaluate (.raw (Node.string s q).code)) e = (.ok (.scalar (.string s)), e)

theorem mixedQuotes_read_back : ReadBack "it's \"C:\\dir\"\n" '\'' {} := by
  obtain ⟨v, w, hhead, hexec, hv, hw⟩ := string_read_back "it's \"C:\\dir\"\n" '\'' rfl {}
  obtain rfl := hv.2 (by decide +kernel)
  obtain rfl := hw.2 (by decide +kernel)
  exact ⟨hhead, hexec⟩

theorem backslashLetter_not_read_back : ¬ ReadBack "\\n" '"' {} := by
  rintro ⟨hhead, -⟩
  have htag : IsName "styled".toList := by decide +kernel
  have hread := readHeadText_literal (q := '"') rfl ['\\', 'n'] htag
  rw [show ("styled(" ++ (Node.string "\\n" '"').code ++ ")").toList =
    "styled".toList ++ parenthesised (printString '"' ['\\', 'n']) by decide +kernel, hread] at hhead
  simp only [Except.ok.injEq, Head.mk.injEq, List.cons.injEq, Op.call.injEq, Argument.mk.injEq,
    ArgumentShape.constant.injEq] at hhead
  have hvalue := Eval.Scalar.string.inj (Eval.Value.scalar.inj hhead.2.1.1.2)
  exact absurd hvalue (by decide +kernel)

end CssExtract.Script
