import CssExtract.Proofs.CodeDepth
import CssExtract.Script.Constants
import Mathlib.Data.Option.Basic

namespace CssExtract.Script

open Text

/-- A character that opens comments or templates, of which no declaration has one but in a string. -/
def IsBarrier (x : Char) : Prop := x = '/' ∨ x = '`'

def isQuote (c : Char) : Bool := c = '\'' || c = '"'

/-- Code without comments and templates: each string that begins in it ends in it. -/
inductive Closed : List Char → Prop
  | nil : Closed []
  | code {c : Char} {t : List Char} (h : isQuote c = false) : Closed t → Closed (c :: t)
  | string {q : Char} {body rest t : List Char} (hq : isQuote q = true)
      (h : skip 1 [.string q] (body ++ rest) = .ok (1 + body.length)) :
      Closed t → Closed (q :: (body ++ t))

variable {x : Char} {t w : List Char}

namespace IsBarrier

theorem isBlank (hx : IsBarrier x) : isBlank x = false := by rcases hx with rfl | rfl <;> decide

theorem isInlineBlank (hx : IsBarrier x) : isInlineBlank x = false := by
  rcases hx with rfl | rfl <;> decide

theorem isNameStart (hx : IsBarrier x) : isNameStart x = false := by
  rcases hx with rfl | rfl <;> decide

theorem isNamePart (hx : IsBarrier x) : isNamePart x = false := by
  rcases hx with rfl | rfl <;> decide

theorem isClausePart (hx : IsBarrier x) : isClausePart x = false := by
  rcases hx with rfl | rfl <;> decide

theorem isQuote (hx : IsBarrier x) : isQuote x = false := by rcases hx with rfl | rfl <;> decide

end IsBarrier

theorem dropWhile_barrier {p : Char → Bool} (hp : p x = false) (t w : List Char) :
    (t ++ x :: w).dropWhile p = t.dropWhile p ++ x :: w := by
  induction t with
  | nil => simp [hp]
  | cons c t ih => cases hc : p c <;> simp [hc, ih]

theorem takeWhile_barrier {p : Char → Bool} (hp : p x = false) (t w : List Char) :
    (t ++ x :: w).takeWhile p = t.takeWhile p := by
  induction t with
  | nil => simp [hp]
  | cons c t ih => cases hc : p c <;> simp [hc, ih]

theorem after?_barrier {p : List Char} (hp : x ∉ p) (t w : List Char) :
    after? p (t ++ x :: w) = (after? p t).map (· ++ x :: w) := by
  induction p generalizing t with
  | nil => simp [after?]
  | cons d p ih =>
      rw [List.mem_cons, not_or] at hp
      obtain ⟨hd, hp⟩ := hp
      cases t with
      | nil => simp [after?, Ne.symm hd]
      | cons c t =>
          simp only [List.cons_append, after?]
          split_ifs
          · exact ih hp t
          · rfl

theorem someBlanks?_barrier (hx : IsBarrier x) (t w : List Char) :
    someBlanks? (t ++ x :: w) = (someBlanks? t).map (· ++ x :: w) := by
  cases t with
  | nil => simp [someBlanks?, hx.isBlank]
  | cons c t =>
      simp only [List.cons_append, someBlanks?, trimStart, dropWhile_barrier hx.isBlank]
      split_ifs <;> rfl

theorem pastBlanks_barrier (hx : IsBarrier x) (t w : List Char) :
    pastBlanks (t ++ x :: w) = (pastBlanks t).map (· ++ x :: w) := by
  induction t with
  | nil => simp [pastBlanks, hx.isBlank]
  | cons c t ih =>
      simp only [List.cons_append, pastBlanks, ih]
      split_ifs <;> simp

theorem pastSomeBlanks_barrier (hx : IsBarrier x) (t w : List Char) :
    pastSomeBlanks (t ++ x :: w) = (pastSomeBlanks t).map (· ++ x :: w) := by
  cases t with
  | nil => simp [pastSomeBlanks, hx.isBlank]
  | cons c t =>
      simp only [List.cons_append, pastSomeBlanks, pastBlanks_barrier hx]
      split_ifs <;> rfl

theorem nameLength?_barrier (hx : IsBarrier x) (t w : List Char) :
    nameLength? isNamePart (t ++ x :: w) = nameLength? isNamePart t := by
  cases t with
  | nil => simp [nameLength?, hx.isNameStart]
  | cons c t => simp only [List.cons_append, nameLength?, takeWhile_barrier hx.isNamePart]

namespace Closed

theorem tail {c : Char} (h : Closed (c :: t)) (hc : isQuote c = false) : Closed t := by
  generalize hs : c :: t = s at h
  cases h with
  | nil => simp at hs
  | code _ h =>
      obtain ⟨-, rfl⟩ := List.cons.inj hs
      exact h
  | string hq _ _ =>
      obtain ⟨rfl, -⟩ := List.cons.inj hs
      simp [hq] at hc

theorem of_append {p : List Char} (h : Closed (p ++ t)) (hp : ∀ c ∈ p, isQuote c = false) :
    Closed t := by
  induction p with
  | nil => exact h
  | cons c p ih =>
      obtain ⟨hc, hp⟩ := List.forall_mem_cons.1 hp
      exact ih (h.tail hc) hp

theorem dropWhile {p : Char → Bool} (h : Closed t) (hp : ∀ c, p c = true → isQuote c = false) :
    Closed (t.dropWhile p) := by
  induction t with
  | nil => exact h
  | cons c t ih =>
      rw [List.dropWhile_cons]
      split_ifs with hc
      · exact ih (h.tail (hp c hc))
      · exact h

theorem after? {p r : List Char} (h : Closed t) (hp : p.all (isQuote · = false) = true)
    (hr : Text.after? p t = some r) : Closed r := by
  obtain rfl := after?_eq_some_iff.1 hr
  exact h.of_append (by simpa using hp)

end Closed

theorem isQuote_of_isBlank {c : Char} (h : isBlank c = true) : isQuote c = false := by
  cases hq : isQuote c with
  | false => rfl
  | true =>
      simp only [isQuote, Bool.or_eq_true, decide_eq_true_eq] at hq
      rcases hq with rfl | rfl <;> simp [isBlank] at h

theorem stringTail?_cons {c q : Char} (h : c ≠ '\\') (s : List Char) :
    stringTail? q (c :: s) =
      if c = q then some 1 else if c = '\n' then none else (stringTail? q s).map (· + 1) := by
  cases s <;> simp [stringTail?, h]

theorem ne_backslash_of_isQuote {q : Char} (h : isQuote q = true) : q ≠ '\\' := by
  rintro rfl
  simp [isQuote] at h

theorem stringTail?_of_skip {q : Char} (hq : isQuote q = true) {i : Nat} {body rest : List Char}
    (h : skip i [.string q] (body ++ rest) = .ok (i + body.length)) :
    q ∈ body ∧ ∀ r, stringTail? q (body ++ r) = stringTail? q body := by
  have hback := ne_backslash_of_isQuote hq
  induction hn : body.length using Nat.strongRecOn generalizing i body with
  | _ n ih =>
    cases body with
    | nil =>
        cases rest with
        | nil => simp [skip_nil, atEnd] at h
        | cons d rest => exact absurd (lt_of_skip h) (by simp)
    | cons c body =>
        rw [List.cons_append, List.length_cons] at h
        rw [List.length_cons] at hn
        obtain ⟨opened, hmove, hrest⟩ | ⟨opened, d, t, ht, hmove, hrest⟩ := skip_cases h
        · cases hmove with
          | stringEnd hescape =>
              have hbody : body = [] := by
                have : i + 1 = i + (body.length + 1) := by simpa [skip] using hrest
                exact List.eq_nil_of_length_eq_zero (by omega)
              subst hbody
              exact ⟨by simp, fun r => by simp [stringTail?_cons hescape]⟩
          | stringChar hquote hescape hline =>
              obtain ⟨hmem, hsame⟩ := ih body.length (by omega)
                (hrest.trans (congrArg Except.ok (by omega))) rfl
              refine ⟨by simp [hmem], fun r => ?_⟩
              simp only [List.cons_append, stringTail?_cons hescape, hsame]
        · cases hmove with
          | stringEscape hescape =>
              subst hescape
              cases body with
              | nil =>
                  have := le_of_skip hrest
                  simp at this
              | cons e body =>
                  obtain ⟨rfl, rfl⟩ := List.cons.inj ht
                  rw [List.length_cons] at hn hrest
                  obtain ⟨hmem, hsame⟩ := ih body.length (by omega)
                    (hrest.trans (congrArg Except.ok (by omega))) rfl
                  refine ⟨by simp [hmem], fun r => ?_⟩
                  simp only [List.cons_append, stringTail?, hsame]

theorem stringLength?_barrier (hx : IsBarrier x) (h : Closed t) (w : List Char) :
    stringLength? (t ++ x :: w) = stringLength? t := by
  cases h with
  | nil => rcases hx with rfl | rfl <;> simp [stringLength?]
  | @code c t hc h =>
      have : (c = '"' || c = '\'') = false := by simpa [isQuote, and_comm] using hc
      simp [stringLength?, this]
  | @string q body rest t hq hskip h =>
      obtain ⟨-, hsame⟩ := stringTail?_of_skip hq hskip
      simp only [List.cons_append, List.append_assoc, stringLength?]
      rw [hsame, hsame]

theorem exists_first {p : Char → Bool} (h : ∃ c ∈ t, p c = true) :
    ∃ u c v, t = u ++ c :: v ∧ (∀ d ∈ u, p d = false) ∧ p c = true := by
  induction t with
  | nil => simp at h
  | cons d t ih =>
      cases hd : p d with
      | true => exact ⟨[], d, t, rfl, by simp, hd⟩
      | false =>
          obtain ⟨u, c, v, rfl, hu, hc⟩ := ih (by simpa [hd] using h)
          exact ⟨d :: u, c, v, rfl, List.forall_mem_cons.2 ⟨hd, hu⟩, hc⟩

theorem specifier?_barrier (hx : IsBarrier x) (h : Closed t) (w : List Char) :
    specifier? (t ++ x :: w) = (specifier? t).map fun found => (found.1, found.2 ++ x :: w) := by
  have hnone {c : Char} (hc : isQuote c = false) (s : List Char) : specifier? (c :: s) = none := by
    have : (c = '\'' || c = '"') = false := hc
    simp [specifier?, this]
  cases h with
  | nil => rw [List.nil_append, hnone hx.isQuote]; rfl
  | code hc _ => rw [List.cons_append, hnone hc, hnone hc]; rfl
  | @string q body rest t hq hskip h =>
      obtain ⟨hmem, -⟩ := stringTail?_of_skip hq hskip
      obtain ⟨u, c, v, hbody, hu, hc⟩ := exists_first (t := body ++ t) (p := isQuote)
        ⟨q, List.mem_append_left t hmem, hq⟩
      have hq' : (q = '\'' || q = '"') = true := hq
      have htake (v : List Char) :
          (u ++ c :: v).takeWhile (fun c => c ≠ '\'' && c ≠ '"') = u := by
        have hnot : (fun c : Char => decide (c ≠ '\'') && decide (c ≠ '"')) = fun c => !isQuote c := by
          funext c
          simp [isQuote]
        rw [hnot, List.takeWhile_append_of_pos fun d hd => by simp [hu d hd]]
        simp [hc]
      rw [hbody, List.cons_append, List.append_assoc, List.cons_append]
      simp only [specifier?, hq', if_true, htake, List.drop_left]
      split_ifs <;> rfl

theorem someBlanks?_closed (h : Closed t) {r : List Char} (hr : someBlanks? t = some r) :
    Closed r := by
  cases t with
  | nil => simp [someBlanks?] at hr
  | cons c t =>
      simp only [someBlanks?] at hr
      split_ifs at hr with hblank
      obtain rfl := Option.some.inj hr
      exact (h.tail (isQuote_of_isBlank hblank)).dropWhile fun _ => isQuote_of_isBlank

theorem fromSpecifier?_barrier (hx : IsBarrier x) (h : Closed t) (w : List Char) :
    fromSpecifier? (t ++ x :: w) =
      (fromSpecifier? t).map fun found => (found.1, found.2 ++ x :: w) := by
  have hfrom : x ∉ "from".toList := by rcases hx with rfl | rfl <;> decide
  simp only [fromSpecifier?, someBlanks?_barrier hx, bind, Option.bind]
  cases hs : someBlanks? t with
  | none => rfl
  | some s =>
      have hclosed := someBlanks?_closed h hs
      simp only [Option.map_some, after?_barrier hfrom]
      cases hr : after? "from".toList s with
      | none => rfl
      | some r =>
          have hclosed := hclosed.after? (by decide) hr
          simp only [Option.map_some, someBlanks?_barrier hx]
          cases hq : someBlanks? r with
          | none => rfl
          | some q => exact specifier?_barrier hx (someBlanks?_closed hclosed hq) w

theorem isQuote_of_isClausePart {c : Char} (h : isClausePart c = true) : isQuote c = false := by
  cases hq : isQuote c with
  | false => rfl
  | true =>
      simp only [isQuote, Bool.or_eq_true, decide_eq_true_eq] at hq
      rcases hq with rfl | rfl <;> exact absurd h (by decide)

theorem clause?_barrier (hx : IsBarrier x) (h : Closed t) (w : List Char) :
    clause? (t ++ x :: w) =
      (clause? t).map fun found => (found.1, found.2.1, found.2.2 ++ x :: w) := by
  induction t with
  | nil => simp [clause?, hx.isClausePart]
  | cons c t ih =>
      cases hc : isClausePart c with
      | false => simp [clause?, hc]
      | true =>
          have hclosed := h.tail (isQuote_of_isClausePart hc)
          simp only [List.cons_append, clause?, hc, fromSpecifier?_barrier hx hclosed, ih hclosed]
          cases fromSpecifier? t with
          | some found => rfl
          | none => cases clause? t <;> rfl

theorem mem_pastBlanks_closed (h : Closed t) {r : List Char} (hr : r ∈ pastBlanks t) : Closed r := by
  induction t with
  | nil =>
      obtain rfl : r = [] := by simpa [pastBlanks] using hr
      exact .nil
  | cons c t ih =>
      simp only [pastBlanks] at hr
      split_ifs at hr with hc
      · rcases List.mem_append.1 hr with hr | hr
        · exact ih (h.tail (isQuote_of_isBlank hc)) hr
        · rwa [List.mem_singleton.1 hr]
      · rwa [List.mem_singleton.1 hr]

theorem mem_pastSomeBlanks_closed (h : Closed t) {r : List Char} (hr : r ∈ pastSomeBlanks t) :
    Closed r := by
  cases t with
  | nil => simp [pastSomeBlanks] at hr
  | cons c t =>
      simp only [pastSomeBlanks] at hr
      split_ifs at hr with hc
      · exact mem_pastBlanks_closed (h.tail (isQuote_of_isBlank hc)) hr
      · simp at hr

theorem findSome?_barrier {α : Type} {f g : List Char → Option α} {e : α → α}
    {l : List (List Char)} (h : ∀ s ∈ l, f (s ++ x :: w) = (g s).map e) :
    (l.map (· ++ x :: w)).findSome? f = (l.findSome? g).map e := by
  induction l with
  | nil => rfl
  | cons s l ih =>
      obtain ⟨hs, hl⟩ := List.forall_mem_cons.1 h
      rw [List.map_cons, List.findSome?_cons, List.findSome?_cons, hs, ih hl]
      cases g s <;> rfl

/-- A match that is recognised before the barrier reaches no further. -/
theorem matched_barrier {α : Type} {a : α} {rest : List Char} :
    matched (t ++ x :: w) (a, rest ++ x :: w) = matched t (a, rest) := by
  simp only [matched, List.length_append, Nat.add_sub_add_right]

def typedClause? (s : List Char) : Option (List Char × List Char × List Char) :=
  ((after? "type".toList s).bind fun s => (pastSomeBlanks s).findSome? clause?).or (clause? s)

theorem typedClause?_barrier (hx : IsBarrier x) (h : Closed t) (w : List Char) :
    typedClause? (t ++ x :: w) =
      (typedClause? t).map fun found => (found.1, found.2.1, found.2.2 ++ x :: w) := by
  have htype : x ∉ "type".toList := by rcases hx with rfl | rfl <;> decide
  simp only [typedClause?, after?_barrier htype, clause?_barrier hx h, Option.map_or]
  congr 1
  cases hr : after? "type".toList t with
  | none => rfl
  | some r =>
      have hclosed := h.after? (by decide) hr
      simp only [Option.map_some, Option.bind_some, pastSomeBlanks_barrier hx]
      exact findSome?_barrier fun s hs => clause?_barrier hx (mem_pastSomeBlanks_closed hclosed hs) w

theorem import?_barrier (hx : IsBarrier x) (h : Closed t) (previous : Option Char)
    (w : List Char) : import? previous (t ++ x :: w) = import? previous t := by
  have hword : x ∉ "import".toList := by rcases hx with rfl | rfl <;> decide
  simp only [import?, after?_barrier hword, bind]
  cases previous.any isWord with
  | true => rfl
  | false =>
      simp only [guard, Bool.not_false, if_true, pure, Option.bind_some]
      cases hr : after? "import".toList t with
      | none => rfl
      | some r =>
          have hclosed := h.after? (by decide) hr
          have hfound : (pastSomeBlanks (r ++ x :: w)).findSome? typedClause? =
              ((pastSomeBlanks r).findSome? typedClause?).map fun found =>
                (found.1, found.2.1, found.2.2 ++ x :: w) := by
            rw [pastSomeBlanks_barrier hx]
            exact findSome?_barrier fun s hs =>
              typedClause?_barrier hx (mem_pastSomeBlanks_closed hclosed hs) w
          change ((pastSomeBlanks (r ++ x :: w)).findSome? typedClause?).bind _ =
            ((pastSomeBlanks r).findSome? typedClause?).bind _
          rw [hfound]
          cases (pastSomeBlanks r).findSome? typedClause? with
          | none => rfl
          | some found => simp [matched_barrier]

theorem target?_name {c : Char} (hc : c ≠ '{') (s : List Char) :
    target? (c :: s) =
      let name := (c :: s).takeWhile isNamePart
      if name.isEmpty then none else some (name, (c :: s).drop name.length) := by
  simp [target?, hc]

theorem takeWhile_first {u v : List Char} {d e : Char} (hu : ∀ c ∈ u, decide (c = e) = false)
    (hd : decide (d = e) = true) : (u ++ d :: v).takeWhile (· ≠ e) = u := by
  rw [List.takeWhile_append_of_pos fun c hc => by simpa using hu c hc]
  simp only [decide_eq_true_eq] at hd
  simp [hd]

theorem target?_barrier (hx : IsBarrier x) (w : List Char)
    (hpattern : ∀ r, t = '{' :: r → '}' ∈ r) :
    target? (t ++ x :: w) = (target? t).map fun found => (found.1, found.2 ++ x :: w) := by
  cases t with
  | nil =>
      have hbrace : x ≠ '{' := by rcases hx with rfl | rfl <;> decide
      rw [List.nil_append, target?_name hbrace]
      simp [hx.isNamePart, target?]
  | cons c t =>
      by_cases hc : c = '{'
      · subst hc
        obtain ⟨u, d, v, rfl, hu, hd⟩ := exists_first (p := (· = '}')) ⟨'}', hpattern t rfl, by simp⟩
        simp only [List.cons_append, List.append_assoc, target?, takeWhile_first hu hd,
          List.drop_left]
        rfl
      · rw [List.cons_append, target?_name hc, target?_name hc, ← List.cons_append,
          takeWhile_barrier hx.isNamePart]
        have hle : ((c :: t).takeWhile isNamePart).length ≤ (c :: t).length :=
          (List.takeWhile_sublist _).length_le
        simp only [List.drop_append_of_le_length hle]
        split_ifs <;> rfl

theorem isQuote_of_isNamePart {c : Char} (h : isNamePart c = true) : isQuote c = false := by
  cases hq : isQuote c with
  | false => rfl
  | true =>
      simp only [isQuote, Bool.or_eq_true, decide_eq_true_eq] at hq
      rcases hq with rfl | rfl <;> exact absurd h (by decide)

theorem drop_length_takeWhile (p : Char → Bool) (s : List Char) :
    s.drop (s.takeWhile p).length = s.dropWhile p := by
  induction s with
  | nil => rfl
  | cons c s ih => cases hc : p c <;> simp [hc, ih]

theorem target?_closed (h : Closed t)
    (hpattern : ∀ r, t = '{' :: r → ∀ c ∈ r.takeWhile (· ≠ '}'), isQuote c = false)
    {name r : List Char} (hr : target? t = some (name, r)) : Closed r := by
  cases t with
  | nil => simp [target?] at hr
  | cons c t =>
      by_cases hc : c = '{'
      · subst hc
        have hplain := hpattern t rfl
        by_cases hmem : '}' ∈ t
        · obtain ⟨u, d, v, rfl, hu, hd⟩ := exists_first (p := (· = '}')) ⟨'}', hmem, by simp⟩
          simp only [target?, takeWhile_first hu hd, List.drop_left, Option.some.injEq,
            Prod.mk.injEq] at hr
          obtain rfl := hr.2
          rw [takeWhile_first hu hd] at hplain
          obtain rfl : d = '}' := by simpa using hd
          exact ((h.tail (by decide)).of_append hplain).tail (by decide)
        · have hall : t.takeWhile (· ≠ '}') = t := by
            rw [← List.append_nil t, List.takeWhile_append_of_pos fun c hc => by
              simpa using ne_of_mem_of_not_mem hc hmem]
            simp
          simp only [target?, hall, List.drop_length] at hr
          simp at hr
      · rw [target?_name hc] at hr
        simp only at hr
        split_ifs at hr
        obtain ⟨-, rfl⟩ := Prod.mk.inj (Option.some.inj hr)
        rw [drop_length_takeWhile]
        exact h.dropWhile fun _ => isQuote_of_isNamePart

theorem declarator?_barrier (hx : IsBarrier x) (t w : List Char) :
    declarator? (t ++ x :: w) = (declarator? t).map (· ++ x :: w) := by
  have hconst : x ∉ "const".toList := by rcases hx with rfl | rfl <;> decide
  have hlet : x ∉ "let".toList := by rcases hx with rfl | rfl <;> decide
  have hvar : x ∉ "var".toList := by rcases hx with rfl | rfl <;> decide
  simp only [declarator?, after?_barrier hconst, after?_barrier hlet, after?_barrier hvar,
    Option.map_or]

theorem declarator?_closed (h : Closed t) {r : List Char} (hr : declarator? t = some r) :
    Closed r := by
  simp only [declarator?, Option.or_eq_some_iff] at hr
  rcases hr with hr | ⟨-, hr | ⟨-, hr⟩⟩
  · exact h.after? (by decide) hr
  · exact h.after? (by decide) hr
  · exact h.after? (by decide) hr

def isPlain (c : Char) : Bool := !isQuote c && c ≠ '/' && c ≠ '`'

def plainPattern (s : List Char) : Bool :=
  match (declarator? s).bind someBlanks? with
  | some ('{' :: r) => (r.takeWhile (· ≠ '}')).all isPlain
  | _ => true

theorem closes_of_plain {p : List Char} (hx : IsBarrier x)
    (h : ((p ++ x :: w).takeWhile (· ≠ '}')).all isPlain = true) :
    '}' ∈ p ∧ ∀ c ∈ p.takeWhile (· ≠ '}'), isQuote c = false := by
  by_cases hmem : '}' ∈ p
  · obtain ⟨u, d, v, rfl, hu, hd⟩ := exists_first (p := (· = '}')) ⟨'}', hmem, by simp⟩
    rw [List.append_assoc, List.cons_append, takeWhile_first hu hd] at h
    rw [takeWhile_first hu hd]
    refine ⟨hmem, fun c hc => ?_⟩
    have hplain := List.all_eq_true.1 h c hc
    simp only [isPlain, Bool.and_eq_true, Bool.not_eq_true'] at hplain
    exact hplain.1.1
  · have hbrace : x ≠ '}' := by rcases hx with rfl | rfl <;> decide
    rw [List.takeWhile_append_of_pos fun c hc => by
      simpa using ne_of_mem_of_not_mem hc hmem] at h
    have hplain := List.all_eq_true.1 h x (by simp [hbrace])
    rcases hx with rfl | rfl <;> exact absurd hplain (by decide)

def requireCall? (s : List Char) : Option (List Char × List Char) := do
  let s ← after? ['='] (trimStart s)
  let s ← after? "require(".toList (trimStart s)
  let (source, s) ← specifier? (trimStart s)
  let rest ← after? [')'] (trimStart s)
  some (source, rest)

theorem trimStart_closed (h : Closed t) : Closed (trimStart t) :=
  h.dropWhile fun _ => isQuote_of_isBlank

theorem requireCall?_barrier (hx : IsBarrier x) (h : Closed t) (w : List Char) :
    requireCall? (t ++ x :: w) = (requireCall? t).map fun found => (found.1, found.2 ++ x :: w) := by
  have hequals : x ∉ ['='] := by rcases hx with rfl | rfl <;> decide
  have hrequire : x ∉ "require(".toList := by rcases hx with rfl | rfl <;> decide
  have hparen : x ∉ [')'] := by rcases hx with rfl | rfl <;> decide
  have htrim (t : List Char) : trimStart (t ++ x :: w) = trimStart t ++ x :: w :=
    dropWhile_barrier hx.isBlank t w
  simp only [requireCall?, htrim, after?_barrier hequals, bind]
  cases hr : after? ['='] (trimStart t) with
  | none => rfl
  | some r =>
      have hclosed := (trimStart_closed h).after? (by decide) hr
      simp only [Option.map_some, Option.bind_some, htrim, after?_barrier hrequire]
      cases hs : after? "require(".toList (trimStart r) with
      | none => rfl
      | some s =>
          have hclosed := (trimStart_closed hclosed).after? (by decide) hs
          simp only [Option.map_some, Option.bind_some, htrim,
            specifier?_barrier hx (trimStart_closed hclosed)]
          cases specifier? (trimStart s) with
          | none => rfl
          | some found =>
              simp only [Option.map_some, Option.bind_some, htrim, after?_barrier hparen]
              cases after? [')'] (trimStart found.2) <;> rfl

theorem require?_eq (previous : Option Char) (s : List Char) :
    require? previous s =
      if previous.any isWord then none
      else (((declarator? s).bind someBlanks?).bind target?).bind fun target =>
        (requireCall? target.2).map fun call => matched s ((target.1, call.1), call.2) := by
  cases hword : previous.any isWord with
  | true => simp [require?, hword, guard, failure]
  | false =>
      simp only [require?, requireCall?, hword, guard, bind, Bool.not_false, Bool.false_eq_true, if_true,
        if_false, Option.pure_def, Option.bind_some, Option.map_some, Option.bind_assoc, Option.map_bind,
        Function.comp_def]

theorem declared_barrier (hx : IsBarrier x) (t w : List Char) :
    (declarator? (t ++ x :: w)).bind someBlanks? =
      ((declarator? t).bind someBlanks?).map (· ++ x :: w) := by
  rw [declarator?_barrier hx]
  cases declarator? t with
  | none => rfl
  | some s => exact someBlanks?_barrier hx s w

theorem plainPattern_barrier (hx : IsBarrier x) (h : plainPattern (t ++ x :: w) = true)
    (w' : List Char) : plainPattern (t ++ x :: w') = true := by
  have hbrace : x ≠ '{' := by rcases hx with rfl | rfl <;> decide
  simp only [plainPattern, declared_barrier hx] at h ⊢
  generalize (declarator? t).bind someBlanks? = declared at h ⊢
  cases declared with
  | none => rfl
  | some r =>
      cases r with
      | nil => simp [hbrace]
      | cons c p =>
          by_cases hc : c = '{'
          · subst hc
            have hmem := (closes_of_plain hx h).1
            obtain ⟨u, d, v, rfl, hu, hd⟩ := exists_first (p := (· = '}')) ⟨'}', hmem, by simp⟩
            simpa only [Option.map_some, List.cons_append, List.append_assoc,
              takeWhile_first hu hd] using h
          · simp [hc]

theorem require?_barrier (hx : IsBarrier x) (h : Closed t) (previous : Option Char) (w : List Char)
    (hplain : plainPattern (t ++ x :: w) = true) :
    require? previous (t ++ x :: w) = require? previous t := by
  simp only [plainPattern, require?_eq, declared_barrier hx] at hplain ⊢
  cases hr : (declarator? t).bind someBlanks? with
  | none => rfl
  | some r =>
      obtain ⟨s, hs, hblanks⟩ := Option.bind_eq_some_iff.1 hr
      have hclosed := someBlanks?_closed (declarator?_closed h hs) hblanks
      have hpattern : ∀ p, r = '{' :: p → '}' ∈ p ∧ ∀ c ∈ p.takeWhile (· ≠ '}'), isQuote c = false := by
        rintro p rfl
        rw [hr] at hplain
        exact closes_of_plain hx hplain
      simp only [Option.map_some, Option.bind_some,
        target?_barrier hx w fun p hp => (hpattern p hp).1]
      cases hname : target? r with
      | none => rfl
      | some found =>
          have hclosed := target?_closed hclosed (fun p hp => (hpattern p hp).2) hname
          simp only [Option.map_some, Option.bind_some, requireCall?_barrier hx hclosed]
          cases requireCall? found.2 with
          | none => rfl
          | some call => simp [matched_barrier]

structure EndsNumber (x : Char) : Prop where
  digit : isDigit x = false
  point : x ≠ '.'
  exponent : x ≠ 'e' ∧ x ≠ 'E'
  sign : x ≠ '+' ∧ x ≠ '-'

theorem IsBarrier.endsNumber (hx : IsBarrier x) : EndsNumber x := by
  constructor <;> rcases hx with rfl | rfl <;> decide

theorem digitsLength_barrier (hx : EndsNumber x) (t w : List Char) :
    digitsLength (t ++ x :: w) = digitsLength t := by
  rw [digitsLength, digitsLength, takeWhile_barrier hx.digit]

theorem exponentLength_barrier (hx : EndsNumber x) (t w : List Char) :
    exponentLength (t ++ x :: w) = exponentLength t := by
  cases t with
  | nil => simp [exponentLength, hx.exponent]
  | cons e t =>
      cases t with
      | nil =>
          have hnone : (x :: w).takeWhile isDigit = [] := by simp [hx.digit]
          simp [exponentLength, digitsLength, hx.sign, hnone]
      | cons d t =>
          have hd := digitsLength_barrier hx (d :: t) w
          have ht := digitsLength_barrier hx t w
          rw [List.cons_append] at hd
          by_cases hplus : d = '+'
          · simp [exponentLength, hplus, ht]
          · by_cases hminus : d = '-'
            · simp [exponentLength, hminus, ht]
            · simp [exponentLength, hplus, hminus, hd]

def mantissaLength (s : List Char) : Nat :=
  match s.drop (digitsLength s) with
  | '.' :: fraction => digitsLength s + 1 + digitsLength fraction
  | _ => digitsLength s

theorem numberLength?_eq (s : List Char) :
    numberLength? s =
      if digitsLength s = 0 && mantissaLength s ≤ 1 then none
      else some (mantissaLength s + exponentLength (s.drop (mantissaLength s))) := rfl

theorem digitsLength_le (s : List Char) : digitsLength s ≤ s.length :=
  (List.takeWhile_sublist _).length_le

theorem mantissaLength_le (s : List Char) : mantissaLength s ≤ s.length := by
  have hle := digitsLength_le s
  simp only [mantissaLength]
  split
  · rename_i fraction hrest
    have hlength := congrArg List.length hrest
    have := digitsLength_le fraction
    simp only [List.length_drop, List.length_cons] at hlength
    omega
  · exact hle

theorem mantissaLength_barrier (hx : EndsNumber x) (t w : List Char) :
    mantissaLength (t ++ x :: w) = mantissaLength t := by
  simp only [mantissaLength, digitsLength_barrier hx,
    List.drop_append_of_le_length (digitsLength_le t)]
  cases t.drop (digitsLength t) with
  | nil => simp [hx.point]
  | cons c fraction =>
      by_cases hpoint : c = '.'
      · simp [hpoint, digitsLength_barrier hx]
      · simp [hpoint]

theorem numberLength?_barrier (hx : EndsNumber x) (t w : List Char) :
    numberLength? (t ++ x :: w) = numberLength? t := by
  simp only [numberLength?_eq, digitsLength_barrier hx, mantissaLength_barrier hx,
    List.drop_append_of_le_length (mantissaLength_le t), exponentLength_barrier hx]

theorem signedNumberLength?_barrier (hx : IsBarrier x) (t w : List Char) :
    signedNumberLength? (t ++ x :: w) = signedNumberLength? t := by
  cases t with
  | nil =>
      have hnumber := numberLength?_barrier hx.endsNumber [] w
      rcases hx with rfl | rfl <;> simpa [signedNumberLength?] using hnumber
  | cons c t =>
      by_cases hminus : c = '-'
      · simp [signedNumberLength?, hminus, numberLength?_barrier hx.endsNumber]
      · have hnumber := numberLength?_barrier hx.endsNumber (c :: t) w
        simpa [signedNumberLength?, hminus] using hnumber

theorem literalLength?_barrier (hx : IsBarrier x) (h : Closed t) (w : List Char) :
    literalLength? (t ++ x :: w) = literalLength? t := by
  rw [literalLength?, literalLength?, signedNumberLength?_barrier hx, stringLength?_barrier hx h]

theorem exponentLength_le (s : List Char) : exponentLength s ≤ s.length := by
  cases s with
  | nil => simp [exponentLength]
  | cons e s =>
      unfold exponentLength
      dsimp -zeta only
      extract_lets sign
      clear_value sign
      have := digitsLength_le (s.drop sign)
      rw [List.length_drop] at this
      rw [List.length_cons]
      split_ifs
      · split
        · omega
        · rename_i hsome
          have : digitsLength (s.drop sign) ≠ 0 := hsome
          omega
      · omega

theorem numberLength?_le {s : List Char} {n : Nat} (h : numberLength? s = some n) : n ≤ s.length := by
  rw [numberLength?_eq] at h
  split_ifs at h
  obtain rfl := Option.some.inj h
  have := exponentLength_le (s.drop (mantissaLength s))
  have := mantissaLength_le s
  rw [List.length_drop] at *
  omega

theorem stringTail?_le {q : Char} {s : List Char} {n : Nat} (h : stringTail? q s = some n) :
    n ≤ s.length := by
  fun_induction stringTail? q s generalizing n with
  | case1 => simp at h
  | case2 => simp at h
  | case3 c s hc ih =>
      obtain ⟨k, hk, rfl⟩ := Option.map_eq_some_iff.1 h
      have := ih hk
      simp only [List.length_cons]
      omega
  | case4 s => obtain rfl := Option.some.inj h; simp
  | case5 => simp at h
  | case6 c s _ _ _ ih =>
      obtain ⟨k, hk, rfl⟩ := Option.map_eq_some_iff.1 h
      have := ih hk
      simp only [List.length_cons]
      omega

theorem literalLength?_le {s : List Char} {n : Nat} (h : literalLength? s = some n) :
    n ≤ s.length := by
  rcases Option.or_eq_some_iff.1 h with hnumber | ⟨-, hstring⟩
  · unfold signedNumberLength? at hnumber
    split at hnumber
    · obtain ⟨k, hk, rfl⟩ := Option.map_eq_some_iff.1 hnumber
      exact Nat.succ_le_succ (numberLength?_le hk)
    · exact numberLength?_le hnumber
  · cases s with
    | nil => simp [stringLength?] at hstring
    | cons c s =>
        simp only [stringLength?] at hstring
        split_ifs at hstring
        obtain ⟨k, hk, rfl⟩ := Option.map_eq_some_iff.1 hstring
        exact Nat.succ_le_succ (stringTail?_le hk)

/-- What follows a statement in front of a barrier: the line has to end before it. -/
def lineFeed? : List Char → Option (List Char)
  | [] => none
  | c :: s => if c = '\n' then some (c :: s) else none

theorem lineEnd?_barrier (hx : IsBarrier x) (t w : List Char) :
    lineEnd? (t ++ x :: w) = (lineFeed? t).map (· ++ x :: w) := by
  cases t with
  | nil => rcases hx with rfl | rfl <;> simp [lineEnd?, lineFeed?]
  | cons c t =>
      simp only [List.cons_append, lineEnd?, lineFeed?]
      split_ifs <;> rfl

theorem statementEnd?_barrier (hx : IsBarrier x) (t w : List Char) :
    statementEnd? (t ++ x :: w) =
      (((after? [';'] t).bind fun s => lineFeed? (s.dropWhile isInlineBlank)).or
        (lineFeed? (t.dropWhile isInlineBlank))).map (· ++ x :: w) := by
  have hsemicolon : x ∉ [';'] := by rcases hx with rfl | rfl <;> decide
  simp only [statementEnd?, after?_barrier hsemicolon, dropWhile_barrier hx.isInlineBlank,
    lineEnd?_barrier hx, Option.map_or]
  congr 1
  cases after? [';'] t with
  | none => rfl
  | some r =>
      simp only [Option.map_some, Option.bind_some, dropWhile_barrier hx.isInlineBlank,
        lineEnd?_barrier hx]

def constantValue? (s : List Char) : Option (List Char × List Char) := do
  let s ← after? ['='] (trimStart s)
  let s := trimStart s
  let width ← literalLength? s
  let rest ← (pastBlanks (s.drop width)).findSome? statementEnd?
  some (s.take width, rest)

theorem constantValue?_barrier (hx : IsBarrier x) (h : Closed t) :
    ∃ found : Option (List Char × List Char), ∀ w,
      constantValue? (t ++ x :: w) = found.map fun found => (found.1, found.2 ++ x :: w) := by
  have hequals : x ∉ ['='] := by rcases hx with rfl | rfl <;> decide
  have htrim (t w : List Char) : trimStart (t ++ x :: w) = trimStart t ++ x :: w :=
    dropWhile_barrier hx.isBlank t w
  simp only [constantValue?, htrim, after?_barrier hequals, bind]
  cases hr : after? ['='] (trimStart t) with
  | none => exact ⟨none, fun w => rfl⟩
  | some r =>
      have hclosed := trimStart_closed ((trimStart_closed h).after? (by decide) hr)
      simp only [Option.map_some, Option.bind_some, htrim, literalLength?_barrier hx hclosed]
      cases hwidth : literalLength? (trimStart r) with
      | none => exact ⟨none, fun w => rfl⟩
      | some width =>
          have hle := literalLength?_le hwidth
          refine ⟨((pastBlanks ((trimStart r).drop width)).findSome? fun s =>
            ((after? [';'] s).bind fun s => lineFeed? (s.dropWhile isInlineBlank)).or
              (lineFeed? (s.dropWhile isInlineBlank))).map ((trimStart r).take width, ·), fun w => ?_⟩
          simp only [Option.bind_some, List.drop_append_of_le_length hle,
            List.take_append_of_le_length hle, pastBlanks_barrier hx]
          rw [findSome?_barrier fun s _ => statementEnd?_barrier hx s w]
          cases (pastBlanks ((trimStart r).drop width)).findSome? _ <;> rfl

def declarationIn (s : List Char) : List Char :=
  let line := s.dropWhile isInlineBlank
  ((after? "export".toList line).bind someBlanks?).getD line

theorem declarationIn_barrier (hx : IsBarrier x) (t w : List Char) :
    declarationIn (t ++ x :: w) = declarationIn t ++ x :: w := by
  have hexport : x ∉ "export".toList := by rcases hx with rfl | rfl <;> decide
  simp only [declarationIn, dropWhile_barrier hx.isInlineBlank, after?_barrier hexport]
  cases after? "export".toList (t.dropWhile isInlineBlank) with
  | none => rfl
  | some r =>
      simp only [Option.map_some, Option.bind_some, someBlanks?_barrier hx]
      cases someBlanks? r <;> rfl

theorem isQuote_of_isInlineBlank {c : Char} (h : isInlineBlank c = true) : isQuote c = false := by
  simp only [isInlineBlank, Bool.or_eq_true, decide_eq_true_eq] at h
  rcases h with rfl | rfl <;> decide

theorem declarationIn_closed (h : Closed t) : Closed (declarationIn t) := by
  have hline := h.dropWhile fun _ => isQuote_of_isInlineBlank
  simp only [declarationIn]
  cases hs : (after? "export".toList (t.dropWhile isInlineBlank)).bind someBlanks? with
  | none => exact hline
  | some s =>
      obtain ⟨r, hr, hblanks⟩ := Option.bind_eq_some_iff.1 hs
      exact someBlanks?_closed (hline.after? (by decide) hr) hblanks

theorem drop_name_closed (h : Closed t) {n : Nat} (hn : nameLength? isNamePart t = some n) :
    Closed (t.drop n) := by
  cases t with
  | nil => simp [nameLength?] at hn
  | cons c t =>
      simp only [nameLength?] at hn
      split_ifs at hn with hc
      obtain rfl := Option.some.inj hn
      have hquote : isQuote c = false := by
        cases hq : isQuote c with
        | false => rfl
        | true =>
            simp only [isQuote, Bool.or_eq_true, decide_eq_true_eq] at hq
            rcases hq with rfl | rfl <;> exact absurd hc (by decide)
      rw [List.drop_succ_cons, drop_length_takeWhile]
      exact (h.tail hquote).dropWhile fun _ => isQuote_of_isNamePart

theorem constant?_eq (previous : Option Char) (s : List Char) :
    constant? previous s =
      if previous.all (· = '\n') then
        ((declarator? (declarationIn s)).bind someBlanks?).bind fun r =>
          (nameLength? isNamePart r).bind fun length =>
            (constantValue? (r.drop length)).map fun value =>
              matched s ((r.take length, value.1), value.2)
      else none := by
  rw [constant?]
  cases previous.all (· = '\n') with
  | false => rfl
  | true =>
      simp only [constantValue?, declarationIn, guard, if_true, bind, Option.bind_assoc, Option.map_bind,
        Function.comp_def, Option.map_some]
      rfl

theorem matched_snd_le {α : Type} (s : List Char) (found : α × List Char) :
    (matched s found).2 ≤ s.length := Nat.sub_le _ _

/-- A constant is settled before the barrier, though not as at the end of a text, where a line ends
too. -/
theorem constant?_barrier (hx : IsBarrier x) (h : Closed t) (previous : Option Char) :
    ∃ found, (∀ result, found = some result → result.2 ≤ t.length) ∧
      ∀ w, constant? previous (t ++ x :: w) = found := by
  simp only [constant?_eq, declarationIn_barrier hx, declared_barrier hx]
  split_ifs
  · cases hr : (declarator? (declarationIn t)).bind someBlanks? with
    | none => exact ⟨none, by simp, fun w => rfl⟩
    | some r =>
        obtain ⟨s, hs, hblanks⟩ := Option.bind_eq_some_iff.1 hr
        have hclosed := someBlanks?_closed (declarator?_closed (declarationIn_closed h) hs) hblanks
        simp only [Option.map_some, Option.bind_some, nameLength?_barrier hx]
        cases hlength : nameLength? isNamePart r with
        | none => exact ⟨none, by simp, fun w => rfl⟩
        | some length =>
            have hle := nameLength?_le hlength
            obtain ⟨found, hfound⟩ := constantValue?_barrier hx (drop_name_closed hclosed hlength)
            refine ⟨found.map fun value => matched t ((r.take length, value.1), value.2), ?_,
              fun w => ?_⟩
            · intro result hresult
              obtain ⟨value, -, rfl⟩ := Option.map_eq_some_iff.1 hresult
              exact matched_snd_le _ _
            simp only [Option.bind_some, List.drop_append_of_le_length hle,
              List.take_append_of_le_length hle, hfound]
            cases found with
            | none => rfl
            | some value => simp [matched_barrier]
  · exact ⟨none, by simp, fun w => rfl⟩

end CssExtract.Script
