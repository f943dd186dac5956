import CssExtract.Glob.Match
import CssExtract.Proofs.BraceExpansion
import Mathlib.Data.List.Infix

namespace CssExtract.Glob

variable {atStart first : Bool} {fuel fuel' : Nat} {items : List Item} {c : Char} {s rest : List Char}

theorem length_of_namedClass? {test : Char → Bool} (h : namedClass? s = some (test, rest)) :
    rest.length ≤ s.length := by
  obtain ⟨entry, -, hentry⟩ := List.exists_of_findSome?_eq_some h
  dsimp only at hentry
  split_ifs at hentry
  cases hentry
  rw [List.length_drop]
  exact Nat.sub_le ..

theorem length_of_setItems {found found' : List CharItem}
    (h : setItems fuel first found s = some (found', rest)) : rest.length ≤ s.length := by
  induction fuel generalizing first found s with
  | zero => simp [setItems] at h
  | succ fuel ih =>
      cases s with
      | nil => simp [setItems] at h
      | cons c s =>
          have hnamed : ∀ {test rest}, (if c = '[' then namedClass? s else none) = some (test, rest) →
              rest.length ≤ s.length := by
            intro test rest h
            split_ifs at h
            exact length_of_namedClass? h
          unfold setItems at h
          rw [List.length_cons]
          split at h
          · cases h
            exact Nat.le_succ _
          split at h
          · cases h
          split at h
          · have hclass := hnamed ‹_›
            have hread := ih h
            rw [List.length_cons] at hclass
            omega
          · have hclass := hnamed ‹_›
            have hread := ih h
            omega
          · split at h
            · rename_i high s _
              repeat' split at h
              · cases h
              all_goals
                have hread := ih h
                simp only [List.length_cons] at hread ⊢
                omega
            · have hread := ih h
              omega

theorem length_of_set? {set : CharSet} (h : set? s = some (set, rest)) : rest.length ≤ s.length := by
  unfold set? at h
  obtain ⟨⟨found, rest'⟩, hread, heq⟩ := Option.map_eq_some_iff.1 h
  obtain rfl : rest' = rest := (Prod.mk.inj heq).2
  have hlength := length_of_setItems hread
  split at hlength
  · split_ifs at hlength <;> simp only [List.length_cons] at hlength ⊢ <;> omega
  · exact hlength

theorem length_single (c : Char) (s : List Char) : (single c s).2.length ≤ s.length := by
  rw [single]
  split_ifs
  · exact Nat.le_refl _
  · split
    · exact length_of_set? ‹_›
    · exact Nat.le_refl _
  · exact Nat.le_refl _

theorem length_of_alternatives? {done found : List (List Item)} {current : List Item}
    (h : alternatives? fuel first atStart done current s = some (found, rest)) : rest.length ≤ s.length := by
  induction fuel generalizing first atStart done current s found rest with
  | zero => simp [alternatives?] at h
  | succ fuel ih =>
      cases s with
      | nil => simp [alternatives?] at h
      | cons c s =>
          rw [alternatives?] at h
          rw [List.length_cons]
          dsimp only at h
          split at h
          · rename_i inner rest' hnested
            split_ifs at hnested
            have hinner := ih hnested
            have hread := ih h
            rw [List.length_tail] at hinner
            omega
          · have hsingle := length_single c s
            split_ifs at h
            · cases h
              exact Nat.le_succ _
            all_goals
              have hread := ih h
              omega

def nested? (atStart : Bool) (c : Char) (s : List Char) : Option (List (List Item) × List Char) :=
  if opensGroup c s then alternatives? s.length atStart atStart [] [] s.tail else none

def starOf? (atStart : Bool) (s : List Char) : Option (Item × Bool × List Char) :=
  match atStart, s with
  | true, ['*'] => none
  | true, '*' :: '/' :: rest => some (.segments, true, rest.dropWhile (· = '/'))
  | atStart, s => some (.star atStart, false, s)

def itemOf? (atStart : Bool) (c : Char) (s : List Char) : Option (Item × Bool × List Char) :=
  match nested? atStart c s with
  | some (inner, rest) => some (groupOf c atStart inner, false, rest)
  | none =>
    if c = '/' then some (.slashes, true, s.dropWhile (· = '/'))
    else if c = '*' then starOf? atStart s
    else some ((single c s).1, false, (single c s).2)

theorem itemsFrom_cons : itemsFrom (fuel + 1) atStart items (c :: s) =
    match itemOf? atStart c s with
    | some (item, atStart, rest) => itemsFrom fuel atStart (item :: items) rest
    | none => (.remainder :: items).reverse := by
  rw [itemsFrom.eq_def, itemOf?]
  dsimp only
  rw [← nested?]
  cases nested? atStart c s with
  | some found => rfl
  | none =>
      dsimp only
      split_ifs
      · rfl
      · split
        · rfl
        · rfl
        · rw [starOf?] <;> assumption
      · rfl

theorem length_of_starOf? {item : Item} {atStart' : Bool}
    (h : starOf? atStart s = some (item, atStart', rest)) :
    rest.length ≤ s.length := by
  unfold starOf? at h
  split at h
  · simp at h
  · rename_i s
    cases h
    have hrest : (s.dropWhile (· = '/')).length ≤ s.length := (List.dropWhile_suffix _).length_le
    simp only [List.length_cons]
    omega
  · cases h
    exact Nat.le_refl _

theorem length_of_itemOf? {item : Item} {atStart' : Bool}
    (h : itemOf? atStart c s = some (item, atStart', rest)) :
    rest.length ≤ s.length := by
  rw [itemOf?] at h
  split at h
  · rename_i inner rest' hnested
    cases h
    rw [nested?] at hnested
    split_ifs at hnested
    have hinner := length_of_alternatives? hnested
    rw [List.length_tail] at hinner
    omega
  · split_ifs at h
    · cases h
      exact (List.dropWhile_suffix _).length_le
    · exact length_of_starOf? h
    · cases h
      exact length_single c s

theorem itemsFrom_congr (h : s.length < fuel) (h' : s.length < fuel') :
    itemsFrom fuel atStart items s = itemsFrom fuel' atStart items s := by
  induction fuel generalizing fuel' atStart items s with
  | zero => exact absurd h (Nat.not_lt_zero _)
  | succ fuel ih =>
      obtain ⟨fuel', rfl⟩ : ∃ n, fuel' = n + 1 := ⟨fuel' - 1, by omega⟩
      cases s with
      | nil => rw [itemsFrom, itemsFrom]
      | cons c s =>
          rw [List.length_cons] at h h'
          rw [itemsFrom_cons, itemsFrom_cons]
          split
          · rename_i hitem
            have hrest := length_of_itemOf? hitem
            exact ih (by omega) (by omega)
          · rfl

theorem itemsFrom_items (items : List Item) :
    itemsFrom fuel atStart items s = items.reverse ++ itemsFrom fuel atStart [] s := by
  induction fuel generalizing atStart items s with
  | zero => simp [itemsFrom]
  | succ fuel ih =>
      cases s with
      | nil => simp [itemsFrom]
      | cons c s =>
          rw [itemsFrom_cons, itemsFrom_cons]
          split
          · rename_i item _ _ _
            rw [ih, ih [item]]
            simp
          · simp

/-- The items of a pattern that goes on at the start of a segment or within one. -/
def itemsOf (atStart : Bool) (s : List Char) : List Item := itemsFrom (s.length + 1) atStart [] s

theorem parse_eq_itemsOf (s : List Char) : parse s = itemsOf true s := rfl

@[simp] theorem itemsOf_nil (atStart : Bool) : itemsOf atStart [] = [] := by
  rw [itemsOf, itemsFrom]
  rfl

theorem itemsOf_cons : itemsOf atStart (c :: s) =
    match itemOf? atStart c s with
    | some (item, atStart, rest) => item :: itemsOf atStart rest
    | none => [.remainder] := by
  rw [itemsOf, itemsFrom_cons]
  split
  · rename_i item atStart' rest hitem
    have hrest := length_of_itemOf? hitem
    have hfuel : rest.length < (c :: s).length := by
      rw [List.length_cons]
      omega
    rw [itemsFrom_items, itemsFrom_congr hfuel (Nat.lt_succ_self _)]
    rfl
  · rfl

/-- A text no part of which means anything else in a pattern. -/
structure Literal (s : List Char) : Prop where
  characters : ∀ c ∈ s, c ∉ ['*', '?', '[', '{']
  groups : ∀ c ∈ ['!', '@', '+'], ¬ [c, '('] <:+: s

instance (s : List Char) : Decidable (Literal s) :=
  decidable_of_iff
    ((s.all fun c => decide (c ∉ ['*', '?', '[', '{'])) = true ∧
      (['!', '@', '+'].all fun c => decide (¬ [c, '('] <:+: s)) = true)
    ⟨fun h => ⟨by simpa using h.1, by simpa using h.2⟩,
      fun h => ⟨by simpa using h.characters, by simpa using h.groups⟩⟩

theorem Literal.of_infix {part : List Char} (h : Literal s) (hpart : part <:+: s) : Literal part where
  characters c hmem := h.characters c (hpart.subset hmem)
  groups c hmem hgroup := h.groups c hmem (hgroup.trans hpart)

theorem mem_of_opensGroup (h : opensGroup c s = true) :
    c ∈ ['!', '@', '+', '*', '?'] ∧ s.head? = some '(' := by
  rw [opensGroup, Bool.and_eq_true, decide_eq_true_eq] at h
  refine ⟨?_, h.2⟩
  have hopens := h.1
  unfold repeat? at hopens
  split at hopens <;> simp_all

theorem Literal.nested?_eq_none {front : List Char} (h : Literal (c :: front)) (hnext : s.head? ≠ some '(') :
    nested? atStart c (front ++ s) = none := by
  have hopens : ¬ opensGroup c (front ++ s) = true := by
    intro hopens
    obtain ⟨hc, hhead⟩ := mem_of_opensGroup hopens
    have hplain := h.characters c List.mem_cons_self
    have hgroup : c ∈ ['!', '@', '+'] := by
      grind
    cases front with
    | nil => exact hnext hhead
    | cons d front =>
        obtain rfl : d = '(' := Option.some.inj hhead
        exact h.groups c hgroup (List.prefix_append [c, '('] front).isInfix
  rw [nested?, if_neg hopens]

theorem Literal.itemsOf_char {front : List Char} (h : Literal (c :: front)) (hc : c ≠ '/')
    (hnext : s.head? ≠ some '(') :
    itemsOf atStart (c :: front ++ s) = .char c :: itemsOf false (front ++ s) := by
  have hplain := h.characters c List.mem_cons_self
  simp only [List.mem_cons, List.not_mem_nil, or_false, not_or] at hplain
  rw [List.cons_append, itemsOf_cons, itemOf?, h.nested?_eq_none hnext]
  simp [single, hc, hplain]

theorem itemsOf_slash (atStart : Bool) (s : List Char) :
    itemsOf atStart ('/' :: s) = .slashes :: itemsOf true (s.dropWhile (· = '/')) := by
  rw [itemsOf_cons, itemOf?]
  simp [nested?, opensGroup, repeat?]

theorem mem_reach_cons {item : Item} {p q : Spot} :
    q ∈ reach (item :: items) p ↔ ∃ r ∈ reachItem item p, q ∈ reach items r := by
  rw [reach, List.mem_eraseDups, List.mem_flatMap]

theorem mem_reach_char {p q : Spot} :
    q ∈ reach (.char c :: items) p ↔ p.rest.head? = some c ∧ q ∈ reach items ⟨c = '/', p.rest.tail⟩ := by
  rw [mem_reach_cons, reachItem]
  cases hrest : p.rest with
  | nil => simp [Spot.next?, hrest]
  | cons d rest =>
      simp only [Spot.next?, hrest]
      by_cases hd : d = c
      · simp [hd]
      · simp [hd]

/-- Plain text leads over itself and nothing else. -/
theorem mem_reach_literal {front rest : List Char} {q : Spot} (h : Literal front) (hslash : '/' ∉ front)
    (hnext : s.head? ≠ some '(') :
    q ∈ reach (itemsOf false (front ++ s)) ⟨false, front ++ rest⟩ ↔
      q ∈ reach (itemsOf false s) ⟨false, rest⟩ := by
  induction front with
  | nil => rfl
  | cons c front ih =>
      rw [List.mem_cons, not_or] at hslash
      rw [h.itemsOf_char (Ne.symm hslash.1) hnext, mem_reach_char]
      simpa [Ne.symm hslash.1] using ih (h.of_infix (List.suffix_cons c front).isInfix) hslash.2

def above (parts : List (List Char)) : List Char := parts.flatMap ('/' :: ·)

def IsPart (part : List Char) : Prop := part ≠ [] ∧ '/' ∉ part

theorem mem_reach_slashes {p q : Spot} : q ∈ reach (itemsOf atStart ('/' :: s)) p ↔
    ∃ r ∈ afterSlashes p.rest, q ∈ reach (itemsOf true (s.dropWhile (· = '/'))) r := by
  rw [itemsOf_slash, mem_reach_cons, reachItem]

abbrev slashes (n : Nat) : List Char := List.replicate n '/'

theorem slashes_append_cons (n : Nat) (s : List Char) : slashes n ++ '/' :: s = '/' :: (slashes n ++ s) := by
  rw [List.append_cons, ← List.replicate_succ', List.replicate_succ, List.cons_append]

theorem mem_afterSlashes_iff {n : Nat} {r : Spot} (hc : c ≠ '/') :
    r ∈ afterSlashes ('/' :: (slashes n ++ c :: rest)) ∧ r.rest.head? = some c ↔ r = ⟨true, c :: rest⟩ := by
  induction n with
  | zero =>
      have hafter : afterSlashes ('/' :: c :: rest) = [⟨true, c :: rest⟩] := by simp [afterSlashes, hc]
      rw [slashes, List.replicate_zero, List.nil_append, hafter, List.mem_singleton, and_iff_left_of_imp]
      rintro rfl
      rfl
  | succ n ih =>
      rw [← ih, slashes, List.replicate_succ, List.cons_append, afterSlashes, if_pos rfl, List.mem_cons,
        or_and_right, or_iff_right_of_imp]
      rintro ⟨rfl, hhead⟩
      exact absurd (Option.some.inj hhead) (Ne.symm hc)

theorem mem_reach_part {n : Nat} {part rest : List Char} {q : Spot} {b : Bool} (hpart : IsPart part)
    (h : Literal part) (hnext : s.head? ≠ some '(') :
    q ∈ reach (itemsOf atStart ('/' :: (slashes n ++ (part ++ s))))
        ⟨b, '/' :: (slashes n ++ (part ++ rest))⟩ ↔
      q ∈ reach (itemsOf false s) ⟨false, rest⟩ := by
  obtain ⟨c, part, rfl⟩ := List.exists_cons_of_ne_nil hpart.1
  obtain ⟨hc, hslash⟩ := not_or.1 (mt List.mem_cons.2 hpart.2)
  have hdrop : (slashes n ++ (c :: part ++ s)).dropWhile (· = '/') = c :: part ++ s := by
    rw [List.dropWhile_append_of_pos (by simp)]
    simp [Ne.symm hc]
  -- a pattern goes on from every slash, but only after the last does the component start
  rw [mem_reach_slashes, hdrop, h.itemsOf_char (Ne.symm hc) hnext]
  simp only [mem_reach_char, ← and_assoc, List.cons_append, mem_afterSlashes_iff (Ne.symm hc),
    exists_eq_left, List.tail_cons, decide_eq_false (Ne.symm hc)]
  exact mem_reach_literal (h.of_infix (List.suffix_cons c part).isInfix) hslash hnext

theorem matchesItems_iff {path : List Char} : matchesItems items path = true ↔
    ∃ q ∈ reach items ⟨true, path⟩, q.rest.all (· = '/') = true := by
  rw [matchesItems, List.any_eq_true]

theorem Literal.brace_notMem (h : Literal s) : '{' ∉ s := fun hmem => h.characters '{' hmem (by decide)

theorem eq_of_mem_afterSlashes {r : Spot} (h : r ∈ afterSlashes s) : ∃ n, s = slashes n ++ r.rest := by
  induction s with
  | nil => simp [afterSlashes] at h
  | cons c s ih =>
      rw [afterSlashes] at h
      split_ifs at h with hc
      · subst hc
        rcases List.mem_cons.1 h with rfl | h
        · exact ⟨1, rfl⟩
        · obtain ⟨n, rfl⟩ := ih h
          exact ⟨n + 1, rfl⟩
      · simp at h

/-- The root as a pattern matches nothing below it but slashes. -/
theorem matchesPattern_root (path : List Char) : matchesPattern ['/'] ('/' :: path) = path.all (· = '/') := by
  rw [matchesPattern, expandBraces_plain (by decide), List.any_cons, List.any_nil, Bool.or_false,
    Bool.eq_iff_iff, matchesItems_iff, parse_eq_itemsOf]
  simp only [mem_reach_slashes, List.dropWhile_nil, itemsOf_nil, reach, List.mem_singleton, exists_eq_right']
  constructor
  · rintro ⟨q, hmem, hq⟩
    obtain ⟨n, hn⟩ := eq_of_mem_afterSlashes hmem
    have hall : ('/' :: path).all (· = '/') = true := by simp [hn, hq]
    exact hall
  · intro hall
    exact ⟨⟨true, path⟩, by simp [afterSlashes], hall⟩

theorem expandBraces_slash (pattern : List Char) :
    expandBraces ('/' :: pattern) = (tails pattern).map ('/' :: ·) := by
  have hfront : expandBraces (['/'] ++ pattern) = (tails pattern).map (['/'] ++ ·) :=
    expandBraces_append (by decide) rfl pattern
  exact hfront

theorem Literal.expandBraces_eq {n : Nat} {part : List Char} (h : Literal part) (pattern : List Char) :
    expandBraces (slashes n ++ '/' :: (part ++ '/' :: pattern)) =
      (tails pattern).map fun tail => slashes n ++ '/' :: (part ++ '/' :: tail) := by
  have hfront : expandBraces (slashes n ++ ('/' :: part ++ ['/']) ++ pattern) =
      (tails pattern).map (slashes n ++ ('/' :: part ++ ['/']) ++ ·) :=
    expandBraces_append (by simp [h.brace_notMem]) (by simp [List.getLast?_append, List.getLast?_cons]) pattern
  simpa using hfront

/-- A component in front of a pattern and of a path may be left out. -/
theorem globmatch_part {n : Nat} {part : List Char} (hpart : IsPart part) (h : Literal part)
    (pattern path : List Char) :
    globmatch (slashes n ++ '/' :: (part ++ '/' :: pattern)) (slashes n ++ '/' :: (part ++ '/' :: path)) =
      globmatch ('/' :: pattern) ('/' :: path) := by
  have hmatches : matchesPattern (slashes n ++ '/' :: (part ++ '/' :: pattern))
      (slashes n ++ '/' :: (part ++ '/' :: path)) = matchesPattern ('/' :: pattern) ('/' :: path) := by
    rw [matchesPattern, matchesPattern, h.expandBraces_eq, expandBraces_slash, List.any_map, List.any_map]
    refine congrArg (tails pattern).any (funext fun tail => Bool.eq_iff_iff.2 ?_)
    simp only [Function.comp_apply, matchesItems_iff, parse_eq_itemsOf]
    refine exists_congr fun q => and_congr_left' ?_
    rw [slashes_append_cons, slashes_append_cons, mem_reach_part hpart h (by simp), mem_reach_slashes,
      mem_reach_slashes]
  simp only [globmatch, hmatches, h.expandBraces_eq, expandBraces_slash, List.length_map]

theorem globmatch_whole {n : Nat} {part : List Char} (hpart : IsPart part) (h : Literal part)
    (path : List Char) :
    globmatch (slashes n ++ '/' :: part) (slashes n ++ '/' :: (part ++ '/' :: path)) =
      globmatch ['/'] ('/' :: path) := by
  have hplain : expandBraces (slashes n ++ '/' :: part) = [slashes n ++ '/' :: part] :=
    expandBraces_plain (by simp [h.brace_notMem])
  have hroot : expandBraces ['/'] = [['/']] := expandBraces_plain (by decide)
  have hreach (q : Spot) : q ∈ reach (itemsOf true (slashes n ++ '/' :: part))
      ⟨true, slashes n ++ '/' :: (part ++ '/' :: path)⟩ ↔ q = ⟨false, '/' :: path⟩ := by
    have hrun : q ∈ reach (itemsOf true ('/' :: (slashes n ++ (part ++ []))))
        ⟨true, '/' :: (slashes n ++ (part ++ '/' :: path))⟩ ↔
          q ∈ reach (itemsOf false []) ⟨false, '/' :: path⟩ := mem_reach_part hpart h (by simp)
    rwa [List.append_nil, itemsOf_nil, reach, List.mem_singleton, ← slashes_append_cons,
      ← slashes_append_cons] at hrun
  have hmatches : matchesPattern (slashes n ++ '/' :: part) (slashes n ++ '/' :: (part ++ '/' :: path)) =
      matchesPattern ['/'] ('/' :: path) := by
    rw [matchesPattern_root, matchesPattern, hplain, List.any_cons, List.any_nil, Bool.or_false,
      Bool.eq_iff_iff, matchesItems_iff, parse_eq_itemsOf]
    simp [hreach]
  simp only [globmatch, hmatches, hplain, hroot, List.length_singleton]

end CssExtract.Glob
