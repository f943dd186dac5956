import CssExtract.Proofs.Assignment
import CssExtract.Proofs.Barrier
import CssExtract.Proofs.Declarations
import CssExtract.Proofs.HeadText

namespace CssExtract.Script

open Text

variable {a b r s v w source : List Char} {c q : Char}

def fromWord : List Char := ['f', 'r', 'o', 'm']

/-- A word of a clause, which ends neither the clause nor itself. -/
structure ClauseWord (w : List Char) : Prop where
  ne_nil : w ≠ []
  ne_from : w ≠ fromWord
  parts : ∀ c ∈ w, isClausePart c = true
  solid : ∀ c ∈ w, isBlank c = false

/-- Words with single blanks between them. -/
inductive Worded : List Char → Prop
  | last {w : List Char} (hw : ClauseWord w) : Worded w
  | more {w a : List Char} (hw : ClauseWord w) (ha : Worded a) : Worded (w ++ ' ' :: a)

theorem Worded.append (ha : Worded a) (hb : Worded b) : Worded (a ++ ' ' :: b) := by
  induction ha with
  | last hw => exact .more hw hb
  | more hw _ ih =>
      rw [List.append_assoc, List.cons_append]
      exact .more hw ih

theorem clauseWord_of_all (hne : w ≠ []) (hfrom : w ≠ fromWord)
    (h : (w.all fun c => isClausePart c && !isBlank c) = true) : ClauseWord w := by
  simp only [List.all_eq_true, Bool.and_eq_true, Bool.not_eq_true'] at h
  exact ⟨hne, hfrom, fun c hc => (h c hc).1, fun c hc => (h c hc).2⟩

theorem ClauseWord.comma (hw : ClauseWord w) : ClauseWord (w ++ [',']) where
  ne_nil := by simp
  ne_from h := by
    have hlast := congrArg List.getLast? h
    rw [List.getLast?_concat] at hlast
    exact absurd hlast (by decide)
  parts := List.forall_mem_append.2 ⟨hw.parts, List.forall_mem_singleton.2 rfl⟩
  solid := List.forall_mem_append.2 ⟨hw.solid, List.forall_mem_singleton.2 rfl⟩

theorem Worded.comma (ha : Worded a) : Worded (a ++ [',']) := by
  induction ha with
  | last hw => exact .last hw.comma
  | more hw _ ih =>
      rw [List.append_assoc, List.cons_append]
      exact .more hw ih

theorem Worded.exists_cons (ha : Worded a) : ∃ c a', a = c :: a' ∧ isBlank c = false := by
  cases ha with
  | last hw | more hw _ =>
      obtain ⟨c, w, rfl⟩ := List.exists_cons_of_ne_nil hw.ne_nil
      exact ⟨c, _, rfl, hw.solid c List.mem_cons_self⟩

theorem Worded.parts (ha : Worded a) : ∀ c ∈ a, isClausePart c = true := by
  induction ha with
  | last hw => exact hw.parts
  | more hw _ ih => exact List.forall_mem_append.2 ⟨hw.parts, List.forall_mem_cons.2 ⟨by decide, ih⟩⟩

theorem specifier?_quoted (hq : isQuote q = true) (hs : source ≠ []) (hplain : ∀ c ∈ source, isQuote c = false)
    (r : List Char) : specifier? (q :: source ++ q :: r) = some (source, r) := by
  have htake : (source ++ q :: r).takeWhile (fun c => decide (c ≠ '\'') && decide (c ≠ '"')) = source := by
    rw [List.takeWhile_append_of_pos]
    · have hstop : (decide (q ≠ '\'') && decide (q ≠ '"')) = false := by
        simp only [isQuote, Bool.or_eq_true, decide_eq_true_eq] at hq
        rcases hq with rfl | rfl <;> decide
      rw [List.takeWhile_cons, hstop]
      simp
    · intro c hc
      have := hplain c hc
      simpa [isQuote] using this
  have hquote : (decide (q = '\'') || decide (q = '"')) = true := hq
  rw [List.cons_append, specifier?, if_pos hquote]
  simp only [htake, List.drop_left]
  simp [hs]

def fromText (q : Char) (source : List Char) : List Char :=
  ' ' :: (fromWord ++ ' ' :: (q :: source ++ [q]))

theorem fromSpecifier?_solid (hc : isBlank c = false) (s : List Char) : fromSpecifier? (c :: s) = none := by
  simp [fromSpecifier?, someBlanks?, hc]

theorem fromSpecifier?_fromText (hq : isQuote q = true) (hs : source ≠ [])
    (hplain : ∀ c ∈ source, isQuote c = false) (r : List Char) :
    fromSpecifier? (fromText q source ++ r) = some (source, r) := by
  have hblank : isBlank q = false := by
    simp only [isQuote, Bool.or_eq_true, decide_eq_true_eq] at hq
    rcases hq with rfl | rfl <;> decide
  have htext : fromText q source ++ r = [' '] ++ (fromWord ++ ([' '] ++ (q :: source ++ q :: r))) := by
    simp [fromText]
  have hafter : after? "from".toList (fromWord ++ ([' '] ++ (q :: source ++ q :: r))) =
      some ([' '] ++ (q :: source ++ q :: r)) := after?_eq_some_iff.2 rfl
  rw [htext, fromSpecifier?, someBlanks?_append (by simp) (List.forall_mem_singleton.2 rfl) rfl]
  simp only [Option.bind_eq_bind, Option.bind_some]
  rw [hafter, Option.bind_some, someBlanks?_append (by simp) (List.forall_mem_singleton.2 rfl) (by simpa using hblank),
    Option.bind_some, specifier?_quoted hq hs hplain]

/-- A keyword that another word starts with is not one there: no blank follows it. -/
theorem exists_solid_of_after? {k : List Char} (hk : ' ' ∉ k) (hw : ∀ c ∈ w, isBlank c = false)
    (hne : w ≠ k) {s : List Char} (h : after? k (w ++ ' ' :: s) = some r) :
    ∃ c r', r = c :: r' ∧ isBlank c = false := by
  rw [after?_barrier hk, Option.map_eq_some_iff] at h
  obtain ⟨rest, hrest, rfl⟩ := h
  have hword : w = k ++ rest := after?_eq_some_iff.1 hrest
  cases rest with
  | nil => exact absurd (by rw [hword, List.append_nil]) hne
  | cons c rest => exact ⟨c, _, rfl, hw c (by simp [hword])⟩

theorem fromSpecifier?_word (hw : ClauseWord w) (s : List Char) :
    fromSpecifier? (' ' :: (w ++ ' ' :: s)) = none := by
  have hblanks : someBlanks? ([' '] ++ (w ++ ' ' :: s)) = some (w ++ ' ' :: s) := by
    obtain ⟨c, w, rfl⟩ := List.exists_cons_of_ne_nil hw.ne_nil
    exact someBlanks?_append (by simp) (List.forall_mem_singleton.2 rfl) (by simpa using hw.solid c List.mem_cons_self)
  rw [List.singleton_append] at hblanks
  rw [fromSpecifier?, hblanks]
  simp only [Option.bind_eq_bind, Option.bind_some]
  cases hrest : after? "from".toList (w ++ ' ' :: s) with
  | none => rfl
  | some rest =>
      obtain ⟨c, rest, rfl, hc⟩ := exists_solid_of_after? (by decide) hw.solid hw.ne_from hrest
      simp [someBlanks?, hc]

theorem clause?_word (hw : ClauseWord w) (s : List Char) :
    clause? (w ++ s) = match fromSpecifier? s with
      | some (source, rest) => some (w, source, rest)
      | none => (clause? s).map fun (clause, found) => (w ++ clause, found) := by
  obtain ⟨hne, -, hparts, hsolid⟩ := hw
  induction w with
  | nil => exact absurd rfl hne
  | cons c w ih =>
      obtain ⟨hc, hparts⟩ := List.forall_mem_cons.1 hparts
      obtain ⟨-, hsolid⟩ := List.forall_mem_cons.1 hsolid
      rw [List.cons_append, clause?, hc]
      cases w with
      | nil => rfl
      | cons d w =>
          -- inside the word no blank stands that a `from` could follow
          have hd : fromSpecifier? (d :: w ++ s) = none := fromSpecifier?_solid (hsolid d List.mem_cons_self) _
          rw [hd, ih (by simp) hparts hsolid]
          cases fromSpecifier? s with
          | some found => rfl
          | none => cases clause? s <;> rfl

/-- The clause of a declaration ends with the first `from` that a specifier follows. -/
theorem clause?_worded (hq : isQuote q = true) (hs : source ≠ [])
    (hplain : ∀ c ∈ source, isQuote c = false) (ha : Worded a) (r : List Char) :
    clause? (a ++ (fromText q source ++ r)) = some (a, source, r) := by
  induction ha with
  | last hw => rw [clause?_word hw, fromSpecifier?_fromText hq hs hplain]
  | @more w a hw ha ih =>
      have hgo : fromSpecifier? (' ' :: (a ++ (fromText q source ++ r))) = none := by
        cases ha with
        | last hw => exact fromSpecifier?_word hw _
        | more hw _ =>
            rw [List.append_assoc]
            exact fromSpecifier?_word hw _
      have hnone : fromSpecifier? (a ++ (fromText q source ++ r)) = none := by
        obtain ⟨c, a, rfl, hc⟩ := ha.exists_cons
        exact fromSpecifier?_solid hc _
      rw [List.append_assoc, clause?_word hw, List.cons_append, hgo]
      simp only
      rw [clause?, hnone, ih]
      rfl

def importWord : List Char := ['i', 'm', 'p', 'o', 'r', 't']

def typeWord : List Char := ['t', 'y', 'p', 'e']

def marker (marked : Bool) : List Char := if marked then typeWord ++ [' '] else []

def declarationText (marked : Bool) (a : List Char) (q : Char) (source : List Char) : List Char :=
  importWord ++ ' ' :: (marker marked ++ (a ++ fromText q source))

def firstWord (a : List Char) : List Char := a.takeWhile fun c => !isBlank c

theorem firstWord_append (hw : ∀ c ∈ w, isBlank c = false) (s : List Char) :
    firstWord (w ++ ' ' :: s) = w := by
  rw [firstWord, List.takeWhile_append_of_pos (by simpa using hw)]
  exact List.append_nil w

theorem Worded.exists_rest (ha : Worded a) (t : List Char) :
    ∃ s, a ++ ' ' :: t = firstWord a ++ ' ' :: s ∧ ClauseWord (firstWord a) := by
  cases ha with
  | last hw =>
      have hfirst : firstWord a = a := List.takeWhile_eq_self_iff.2 (by simpa using hw.solid)
      rw [hfirst]
      exact ⟨t, rfl, hw⟩
  | @more w b hw _ =>
      rw [firstWord_append hw.solid]
      exact ⟨b ++ ' ' :: t, by simp, hw⟩

theorem pastSomeBlanks_solid (hc : isBlank c = false) (s : List Char) :
    pastSomeBlanks (c :: s) = [] ∧ pastSomeBlanks (' ' :: c :: s) = [c :: s] := by
  simp [pastSomeBlanks, pastBlanks, hc]
  decide

/-- What is recognised after the keyword of a declaration and a blank. -/
def markedClause? (s : List Char) : Option (List Char × List Char × List Char) :=
  ((after? "type".toList s).bind fun t => (pastSomeBlanks t).findSome? clause?).or (clause? s)

variable {t : List Char}

theorem markedClause?_marked (hc : isBlank c = false) (h : (clause? (c :: t)).isSome = true) :
    markedClause? (marker true ++ c :: t) = clause? (c :: t) := by
  have hafter : after? "type".toList (marker true ++ c :: t) = some (' ' :: c :: t) :=
    after?_eq_some_iff.2 rfl
  rw [markedClause?, hafter, Option.bind_some, (pastSomeBlanks_solid hc t).2, List.findSome?_singleton]
  exact Option.or_of_isSome h

theorem markedClause?_unmarked (ha : Worded a) (hfirst : firstWord a ≠ typeWord) (t : List Char) :
    markedClause? (a ++ ' ' :: t) = clause? (a ++ ' ' :: t) := by
  obtain ⟨s, hs, hword⟩ := ha.exists_rest t
  rw [markedClause?, hs]
  cases hrest : after? "type".toList (firstWord a ++ ' ' :: s) with
  | none => rfl
  | some rest =>
      -- the first word only begins like a marker
      obtain ⟨c, rest, rfl, hc⟩ := exists_solid_of_after? (by decide) hword.solid hfirst hrest
      rw [Option.bind_some, (pastSomeBlanks_solid hc rest).1]
      rfl

theorem import?_of_markedClause? {previous : Option Char} (hprevious : previous.any isWord = false)
    (hc : isBlank c = false) (h : markedClause? (c :: t) = some (a, source, r)) :
    (import? previous (importWord ++ ' ' :: c :: t)) =
      some ((a, source), (importWord ++ ' ' :: c :: t).length - r.length) := by
  have hafter : after? "import".toList (importWord ++ ' ' :: c :: t) = some (' ' :: c :: t) :=
    after?_eq_some_iff.2 rfl
  have hfind : (pastSomeBlanks (' ' :: c :: t)).findSome? markedClause? = some (a, source, r) := by
    rw [(pastSomeBlanks_solid hc t).2, List.findSome?_singleton, h]
  rw [import?, hafter]
  simp only [hprevious, Bool.not_false, guard_true, Option.pure_def, Option.bind_eq_bind, Option.bind_some]
  exact congrArg (Option.bind · _) hfind

theorem import?_declarationText (hq : isQuote q = true) (hs : source ≠ [])
    (hplain : ∀ c ∈ source, isQuote c = false) (ha : Worded a) (hfirst : firstWord a ≠ typeWord)
    (marked : Bool) {previous : Option Char} (hprevious : previous.any isWord = false) (r : List Char) :
    (import? previous (declarationText marked a q source ++ r)) =
      some ((a, source), (declarationText marked a q source).length) := by
  have hclause : clause? (a ++ (fromText q source ++ r)) = some (a, source, r) :=
    clause?_worded hq hs hplain ha r
  obtain ⟨c, b, hcons, hc⟩ := ha.exists_cons
  have hlength : (declarationText marked a q source ++ r).length - r.length =
      (declarationText marked a q source).length := by
    rw [List.length_append, Nat.add_sub_cancel]
  rw [← hlength]
  have htext : declarationText marked a q source ++ r =
      importWord ++ ' ' :: (marker marked ++ (a ++ (fromText q source ++ r))) := by
    simp [declarationText]
  rw [htext]
  cases marked with
  | false =>
      have hmarked : markedClause? (a ++ (fromText q source ++ r)) = some (a, source, r) := by
        rw [← hclause]
        exact markedClause?_unmarked ha hfirst _
      rw [hcons] at hmarked ⊢
      exact import?_of_markedClause? hprevious hc hmarked
  | true =>
      have hmarked : markedClause? (marker true ++ (a ++ (fromText q source ++ r))) =
          some (a, source, r) := by
        rw [← hclause]
        rw [hcons] at hclause ⊢
        exact markedClause?_marked hc (Option.isSome_iff_exists.2 ⟨_, hclause⟩)
      exact import?_of_markedClause? hprevious (by decide) hmarked

variable {α : Type} {recognise : Option Char → List Char → Option (α × Nat)} {value : α}

theorem matchesFrom_pending (previous : Option Char) (a s : List Char) :
    matchesFrom recognise previous a.length (a ++ s) =
      matchesFrom recognise (a.getLast?.or previous) 0 s := by
  induction a generalizing previous with
  | nil => rfl
  | cons c a ih =>
      rw [List.length_cons, List.cons_append, matchesFrom, ih, getLast?_cons_or]

theorem matchesFrom_match {previous : Option Char} {s : List Char}
    (h : recognise previous (c :: a ++ s) = some (value, (c :: a).length)) :
    matchesFrom recognise previous 0 (c :: a ++ s) =
      value :: matchesFrom recognise (a.getLast?.or (some c)) 0 s := by
  rw [List.cons_append] at h ⊢
  rw [matchesFrom, h]
  simp only [List.length_cons, Nat.add_sub_cancel]
  rw [matchesFrom_pending]

theorem import?_of_ne (hc : c ≠ 'i') (previous : Option Char) (s : List Char) :
    (import? previous (c :: s)) = none := by
  simp only [import?, guard]
  split <;> simp [after?, Ne.symm hc]

theorem target?_suffix {s target : List Char} (h : target? s = some (target, r)) : r <:+ s := by
  unfold target? at h
  split at h
  · rename_i body
    simp only at h
    split at h
    · rename_i close rest hdrop
      obtain ⟨-, rfl⟩ := Prod.mk.inj (Option.some.inj h)
      have hrest : close :: rest <:+ body := hdrop ▸ List.drop_suffix _ _
      exact ((List.suffix_cons close rest).trans hrest).trans (List.suffix_cons '{' body)
    · simp at h
  · simp only at h
    split_ifs at h
    obtain ⟨-, rfl⟩ := Prod.mk.inj (Option.some.inj h)
    exact List.drop_suffix _ _

theorem require?_of_notMem {s : List Char} (h : '(' ∉ s) (previous : Option Char) :
    require? previous s = none := by
  cases hrequire : require? previous s with
  | none => rfl
  | some found =>
      exfalso
      simp only [require?, Option.bind_eq_bind, Option.bind_eq_some_iff, Prod.exists] at hrequire
      obtain ⟨-, -, s₀, hdeclarator, s₁, hblanks, target, s₂, htarget, s₃, hequals, s₄, hparen, -⟩ := hrequire
      obtain ⟨declarator, -, rfl⟩ := exists_declarator hdeclarator
      obtain ⟨blanks, rfl, -⟩ := exists_blanks hblanks
      have h₃ : s₃ <:+ s₁ := by
        have hsuffix : s₃ <:+ trimStart s₂ := ⟨['='], (after?_eq_some_iff.1 hequals).symm⟩
        exact (hsuffix.trans (List.dropWhile_suffix _)).trans (target?_suffix htarget)
      have hmem : '(' ∈ trimStart s₃ := by
        rw [after?_eq_some_iff.1 hparen]
        simp
      have hmem : '(' ∈ s₁ := h₃.subset ((List.dropWhile_suffix _).subset hmem)
      exact h (List.mem_append_right _ (List.mem_append_right _ hmem))

theorem allMatches_require? {s : List Char} (h : '(' ∉ s) : allMatches require? s = [] := by
  have hnone : matchesFrom require? none 0 (s ++ []) = matchesFrom require? (s.getLast?.or none) (0 - s.length) [] := by
    apply matchesFrom_append
    rintro p q rfl -
    rw [List.append_nil]
    exact require?_of_notMem (fun hmem => h (List.mem_append_right p hmem)) _
  rwa [List.append_nil, matchesFrom] at hnone

end CssExtract.Script
