import CssExtract.Glob.Brace
import Mathlib.Tactic.SplitIfs

namespace CssExtract.Glob

variable {total total' fuel fuel' depth : Nat} {inside dollar : Bool} {texts values : List (List Char)}
  {items : Items} {c : Char} {s rest : List Char}

theorem product_assoc (xs ys zs : List (List Char)) :
    product (product xs ys) zs = product xs (product ys zs) := by
  simp [product, List.flatMap_assoc, List.map_flatMap, List.flatMap_map, Function.comp_def]

@[simp] theorem product_singleton (x : List Char) (ys : List (List Char)) :
    product [x] ys = ys.map (x ++ ·) := by
  simp [product]

@[simp] theorem product_nil_text (xs : List (List Char)) : product xs [[]] = xs := by
  simp [product]

def next? (total fuel : Nat) (inside : Bool) (depth : Nat) (dollar : Bool) (c : Char) (s : List Char) :
    Option (List (List Char) × List Char × Bool) :=
  if c = '{' && !dollar then
    match (range? s).or (group total fuel (depth + 1) ⟨[], true, false⟩ s) with
    | some (values, rest) => some (values, rest, false)
    | none => some ([[c]], s, false)
  else if inside && (c = ',' || c = '}') then none
  else some ([[c]], s, c == '$')

theorem range?_nil : range? [] = none := rfl

theorem group_nil : group total fuel depth items [] = none := by
  cases fuel <;> rw [group]

theorem literals_cons : literals total (fuel + 1) inside depth dollar texts (c :: s) =
    match next? total fuel inside depth dollar c s with
    | some (values, rest, dollar) => literals total fuel inside depth dollar (product texts values) rest
    | none => some (texts, c :: s) := by
  rw [literals.eq_def, next?]
  split_ifs with hbrace hend
  · obtain ⟨rfl, -⟩ : c = '{' ∧ dollar = false := by simpa using hbrace
    cases s with
    | nil =>
        rw [range?_nil, group_nil]
        simp
    | cons d s =>
        dsimp only
        rw [if_pos hbrace]
        cases (range? (d :: s)).or (group total fuel (depth + 1) ⟨[], true, false⟩ (d :: s)) <;> rfl
  · simp [hbrace, hend]
  · simp [hbrace, hend]

theorem next?_ne_none (hcomma : c ≠ ',') (hclose : c ≠ '}') :
    next? total fuel inside depth dollar c s ≠ none := by
  rw [next?]
  split_ifs with hbrace hend
  · split <;> simp
  · simp [hcomma, hclose] at hend
  · simp

/-- The texts of a group when the next item has been read, and what follows it. A brace that does not close
the group stands in front of the item. -/
def item? (total fuel depth : Nat) (texts : List (List Char)) (c : Char) (s : List Char) :
    Option (List (List Char) × List Char) :=
  if c = '}' then
    if s = [] then none
    else (literals total fuel true depth false [[]] s).map fun found =>
      (product (if texts.isEmpty then [[c]] else product texts [[c]]) found.1, found.2)
  else (literals total fuel true depth false [[]] (c :: s)).map fun found => (texts ++ found.1, found.2)

theorem literals_of_item? (h : item? total fuel depth texts c s = some (values, rest)) :
    ∃ s' values', s' = (if c = '}' then s else c :: s) ∧
      literals total fuel true depth false [[]] s' = some (values', rest) := by
  rw [item?] at h
  by_cases hbrace : c = '}'
  · rw [if_pos hbrace] at h ⊢
    split at h
    · simp at h
    · obtain ⟨⟨values', rest'⟩, hread, heq⟩ := Option.map_eq_some_iff.1 h
      obtain rfl : rest' = rest := (Prod.mk.inj heq).2
      exact ⟨s, values', rfl, hread⟩
  · rw [if_neg hbrace] at h ⊢
    obtain ⟨⟨values', rest'⟩, hread, heq⟩ := Option.map_eq_some_iff.1 h
    obtain rfl : rest' = rest := (Prod.mk.inj heq).2
    exact ⟨c :: s, values', rfl, hread⟩

def Items.ended (items : Items) : List (List Char) := items.texts ++ if items.due then [[]] else []

def Items.closed (items : Items) : List (List Char) :=
  if items.comma then items.ended else items.ended.map fun t => '{' :: t ++ ['}']

theorem group_cons : group total (fuel + 1) depth items (c :: s) =
    if c = '}' && (depth ≠ 1 || items.comma || total = s.length + 2) then some (items.closed, s)
    else if c = ',' then group total fuel depth ⟨items.ended, true, true⟩ s
    else (item? total fuel depth items.texts c s).bind fun found =>
      group total fuel depth ⟨found.1, false, items.comma⟩ found.2 := by
  rw [group.eq_def]
  dsimp only
  congr 2
  by_cases hbrace : c = '}'
  · cases s with
    | nil => simp [item?, hbrace]
    | cons d s =>
        simp only [if_pos hbrace, item?, List.cons_ne_nil, if_false]
        cases literals total fuel true depth false [[]] (d :: s) <;> rfl
  · simp only [if_neg hbrace, item?]
    cases literals total fuel true depth false [[]] (c :: s) <;> rfl

theorem length_of_rangeEnd? {step : Nat} (h : rangeEnd? s = some (step, rest)) :
    rest.length < s.length := by
  unfold rangeEnd? at h
  split at h
  · cases h
    simp
  · dsimp only at h
    split at h
    · rename_i hdrop
      have hlength := congrArg List.length hdrop
      cases h
      simp at hlength ⊢
      omega
    · simp at h
  · simp at h

theorem length_of_map_rangeEnd? {f : Nat → List (List Char)}
    (h : (rangeEnd? s).map (fun (step, rest) => (f step, rest)) = some (values, rest)) :
    rest.length < s.length := by
  obtain ⟨⟨step, rest'⟩, hend, heq⟩ := Option.map_eq_some_iff.1 h
  obtain rfl : rest' = rest := (Prod.mk.inj heq).2
  exact length_of_rangeEnd? hend

theorem length_of_range? (h : range? s = some (values, rest)) : rest.length < s.length := by
  unfold range? at h
  dsimp only at h
  split at h
  · rename_i hdrop
    split_ifs at h
    have hrest := length_of_map_rangeEnd? h
    have hlength := congrArg List.length hdrop
    simp only [List.length_drop, List.length_cons] at hlength hrest
    omega
  · rename_i hdrop
    split_ifs at h
    have hrest := length_of_map_rangeEnd? h
    have hlength := congrArg List.length hdrop
    simp only [List.length_drop, List.length_cons] at hlength
    omega
  · simp at h

theorem length_of_next? {dollar' : Bool}
    (hgroup : ∀ {values rest}, group total fuel (depth + 1) ⟨[], true, false⟩ s = some (values, rest) →
      rest.length < s.length)
    (h : next? total fuel inside depth dollar c s = some (values, rest, dollar')) :
    rest.length ≤ s.length := by
  rw [next?] at h
  split_ifs at h
  · split at h
    · rename_i hread
      cases h
      rcases Option.or_eq_some_iff.1 hread with hrange | ⟨-, hread⟩
      · exact Nat.le_of_lt (length_of_range? hrange)
      · exact Nat.le_of_lt (hgroup hread)
    · cases h
      exact Nat.le_refl _
  · cases h
    exact Nat.le_refl _

theorem length_of_expansion (fuel : Nat) :
    (∀ {total inside depth dollar texts s values rest},
      literals total fuel inside depth dollar texts s = some (values, rest) → rest.length ≤ s.length) ∧
    ∀ {total depth items s values rest},
      group total fuel depth items s = some (values, rest) → rest.length < s.length := by
  -- one induction for both, as texts hold groups and groups hold texts
  induction fuel with
  | zero =>
      refine ⟨fun h => ?_, fun h => ?_⟩
      · rw [literals] at h
        cases h
        exact Nat.le_refl _
      · simp [group] at h
  | succ fuel ih =>
      obtain ⟨hliterals, hgroup⟩ := ih
      refine ⟨@fun total inside depth dollar texts s values rest h => ?_,
        @fun total depth items s values rest h => ?_⟩
      · cases s with
        | nil =>
            rw [literals] at h
            split_ifs at h
            cases h
            exact Nat.le_refl _
        | cons c s =>
            rw [literals_cons] at h
            split at h
            · rename_i hnext
              exact Nat.le_succ_of_le (Nat.le_trans (hliterals h) (length_of_next? hgroup hnext))
            · cases h
              exact Nat.le_refl _
      · cases s with
        | nil => simp [group_nil] at h
        | cons c s =>
            rw [group_cons] at h
            rw [List.length_cons]
            split_ifs at h
            · cases h
              exact Nat.lt_succ_self _
            · exact Nat.lt_succ_of_lt (hgroup h)
            · obtain ⟨⟨texts, rest'⟩, hitem, h⟩ := Option.bind_eq_some_iff.1 h
              obtain ⟨s', values', rfl, hread⟩ := literals_of_item? hitem
              have hitem := hliterals hread
              have hrest := hgroup h
              split_ifs at hitem <;> simp only [List.length_cons] at hitem hrest <;> omega

theorem length_of_item? (hcomma : c ≠ ',') (h : item? total fuel depth texts c s = some (values, rest))
    (hfuel : fuel ≠ 0) : rest.length ≤ s.length := by
  obtain ⟨fuel, rfl⟩ := Nat.exists_eq_succ_of_ne_zero hfuel
  obtain ⟨s', values', rfl, hread⟩ := literals_of_item? h
  split_ifs at hread with hbrace
  · exact (length_of_expansion (fuel + 1)).1 hread
  · rw [literals_cons] at hread
    split at hread
    · rename_i hnext
      obtain ⟨hliterals, hgroup⟩ := length_of_expansion fuel
      exact Nat.le_trans (hliterals hread) (length_of_next? hgroup hnext)
    · exact absurd ‹_› (next?_ne_none hcomma hbrace)

/-- Neither more fuel nor a longer text around it makes a difference. -/
theorem expansion_congr (fuel : Nat) :
    (∀ {total total' fuel' inside depth dollar texts s}, 2 * s.length + 1 ≤ fuel →
      2 * s.length + 1 ≤ fuel' → s.length < total → s.length < total' →
      literals total fuel inside depth dollar texts s = literals total' fuel' inside depth dollar texts s) ∧
    ∀ {total total' fuel' depth items s}, 2 * s.length + 2 ≤ fuel → 2 * s.length + 2 ≤ fuel' →
      s.length + 1 < total → s.length + 1 < total' →
      group total fuel depth items s = group total' fuel' depth items s := by
  -- an item of a group is begun without a character being read, so that each may cost two units
  induction fuel with
  | zero => exact ⟨fun h => absurd h (by omega), fun h => absurd h (by omega)⟩
  | succ fuel ih =>
      obtain ⟨hliterals, hgroup⟩ := ih
      refine ⟨@fun total total' fuel' inside depth dollar texts s hfuel hfuel' htotal htotal' => ?_,
        @fun total total' fuel' depth items s hfuel hfuel' htotal htotal' => ?_⟩
      · obtain ⟨fuel', rfl⟩ : ∃ n, fuel' = n + 1 := ⟨fuel' - 1, by omega⟩
        cases s with
        | nil => rw [literals, literals]
        | cons c s =>
            rw [List.length_cons] at hfuel hfuel' htotal htotal'
            have hgroups : group total fuel (depth + 1) ⟨[], true, false⟩ s =
                group total' fuel' (depth + 1) ⟨[], true, false⟩ s :=
              hgroup (by omega) (by omega) (by omega) (by omega)
            have hnext : next? total fuel inside depth dollar c s =
                next? total' fuel' inside depth dollar c s := by
              rw [next?, next?, hgroups]
            rw [literals_cons, literals_cons, hnext]
            split
            · rename_i hread
              have hlength := length_of_next? (length_of_expansion fuel').2 hread
              exact hliterals (by omega) (by omega) (by omega) (by omega)
            · rfl
      · obtain ⟨fuel', rfl⟩ : ∃ n, fuel' = n + 1 := ⟨fuel' - 1, by omega⟩
        cases s with
        | nil => rw [group_nil, group_nil]
        | cons c s =>
            rw [List.length_cons] at hfuel hfuel' htotal htotal'
            have hskipped : literals total fuel true depth false [[]] s =
                literals total' fuel' true depth false [[]] s :=
              hliterals (by omega) (by omega) (by omega) (by omega)
            have hread : literals total fuel true depth false [[]] (c :: s) =
                literals total' fuel' true depth false [[]] (c :: s) := by
              refine hliterals ?_ ?_ ?_ ?_ <;> rw [List.length_cons] <;> omega
            have hitem : item? total fuel depth items.texts c s =
                item? total' fuel' depth items.texts c s := by
              rw [item?, item?, hskipped, hread]
            -- braces at the very start of the text cannot be met here
            have hend : decide (total = s.length + 2) = decide (total' = s.length + 2) := by
              rw [decide_eq_decide]
              omega
            rw [group_cons, group_cons, hitem, hend]
            split_ifs with hclose hcomma
            · rfl
            · exact hgroup (by omega) (by omega) (by omega) (by omega)
            · refine Option.bind_congr fun found hread => ?_
              have hlength := length_of_item? hcomma hread (by omega)
              exact hgroup (by omega) (by omega) (by omega) (by omega)

theorem literals_texts (xs ys : List (List Char)) :
    literals total fuel inside depth dollar (product xs ys) s =
      (literals total fuel inside depth dollar ys s).map fun found => (product xs found.1, found.2) := by
  induction fuel generalizing dollar ys s with
  | zero => rw [literals, literals, Option.map_some]
  | succ fuel ih =>
      cases s with
      | nil =>
          rw [literals, literals]
          split_ifs <;> rfl
      | cons c s =>
          rw [literals_cons, literals_cons]
          split
          · rw [product_assoc, ih]
          · rw [Option.map_some]

theorem literals_plain {front : List Char} (hplain : '{' ∉ front) :
    literals total (fuel + front.length) false depth dollar texts (front ++ s) =
      literals total fuel false depth (front.foldl (fun _ c => c == '$') dollar)
        (product texts [front]) s := by
  induction front generalizing dollar texts with
  | nil => simp
  | cons c front ih =>
      rw [List.mem_cons, not_or] at hplain
      have hnext : next? total (fuel + front.length) false depth dollar c (front ++ s) =
          some ([[c]], front ++ s, c == '$') := by
        simp [next?, Ne.symm hplain.1]
      rw [List.cons_append, List.length_cons, ← Nat.add_assoc, literals_cons, hnext]
      dsimp only
      rw [ih hplain.2, product_assoc, product_singleton, List.foldl_cons]
      rfl

def tails (s : List Char) : List (List Char) :=
  match literals (s.length + 1) (2 * s.length + 1) false 0 false [[]] s with
  | some (texts, _) => texts
  | none => [s]

/-- A beginning without braces stands in front of what is expanded on its own. -/
theorem expandBraces_append {front : List Char} (hplain : '{' ∉ front) (hslash : front.getLast? = some '/')
    (s : List Char) : expandBraces (front ++ s) = (tails s).map (front ++ ·) := by
  have hdollar : front.foldl (fun _ c => c == '$') false = false := by
    obtain ⟨front, rfl⟩ := List.getLast?_eq_some_iff.1 hslash
    simp
  have hne : 0 < front.length := List.length_pos_iff.2 (by rintro rfl; simp at hslash)
  have hlength : (front ++ s).length = front.length + s.length := List.length_append
  obtain ⟨n, hn, hle⟩ : ∃ n, 2 * (front ++ s).length + 2 = n + front.length ∧ 2 * s.length + 1 ≤ n :=
    ⟨front.length + 2 * s.length + 2, by omega, by omega⟩
  have hfront : literals (front ++ s).length (n + front.length) false 0 false [[]] (front ++ s) =
      (literals (front ++ s).length n false 0 false [[]] s).map fun found =>
        (product [front] found.1, found.2) := by
    rw [literals_plain hplain, hdollar, product_singleton, List.map_singleton, List.nil_append,
      ← product_nil_text [front], literals_texts, product_nil_text]
  have hrest : literals (front ++ s).length n false 0 false [[]] s =
      literals (s.length + 1) (2 * s.length + 1) false 0 false [[]] s :=
    (expansion_congr n).1 hle (Nat.le_refl _) (by omega) (Nat.lt_succ_self _)
  rw [expandBraces, hn, hfront, hrest, tails]
  cases literals (s.length + 1) (2 * s.length + 1) false 0 false [[]] s <;> simp

theorem expandBraces_plain {front : List Char} (hplain : '{' ∉ front) : expandBraces front = [front] := by
  have hread : literals front.length (front.length + 2 + front.length) false 0 false [[]] (front ++ []) = _ :=
    literals_plain hplain
  rw [List.append_nil, literals] at hread
  rw [expandBraces, show 2 * front.length + 2 = front.length + 2 + front.length by omega, hread]
  simp

end CssExtract.Glob
