namespace CssExtract.Text

/-- The number of entries up to a value in a table that increases; those from `lo` to `hi` are still
to be compared with it. It is open to evaluation, for the positions in given texts. -/
@[semireducible] def countUpTo (table : Array Nat) (x lo hi : Nat) (h : hi ≤ table.size) : Nat :=
  if hlt : lo < hi then
    if x < table[(lo + hi) / 2] then countUpTo table x lo ((lo + hi) / 2) (by omega)
    else countUpTo table x ((lo + hi) / 2 + 1) hi h
  else lo
termination_by hi - lo

/-- The entries before a stretch of a table are up to a value, and those behind it are not. -/
structure Narrowed (table : Array Nat) (x lo hi : Nat) : Prop where
  lo_le_hi : lo ≤ hi
  hi_le_size : hi ≤ table.size
  below (i : Nat) (h : i < table.size) : i < lo → table[i] ≤ x
  above (i : Nat) (h : i < table.size) : hi ≤ i → x < table[i]

section Table

variable {table : Array Nat} {x lo hi mid : Nat}

theorem getElem_le_getElem (hinc : table.toList.Pairwise (· < ·)) {i j : Nat} (hij : i ≤ j)
    (hj : j < table.size) : table[i] ≤ table[j] := by
  obtain hij | rfl := Nat.lt_or_eq_of_le hij
  · have hlt := List.pairwise_iff_getElem.1 hinc i j (by simp; omega) (by simpa using hj) hij
    simpa using Nat.le_of_lt hlt
  · exact Nat.le_refl _

theorem Narrowed.lower (h : Narrowed table x lo hi) (hinc : table.toList.Pairwise (· < ·))
    (hlo : lo ≤ mid) (hmid : mid < table.size) (hx : x < table[mid]) : Narrowed table x lo mid where
  lo_le_hi := hlo
  hi_le_size := Nat.le_of_lt hmid
  below := h.below
  above _ hi hle := Nat.lt_of_lt_of_le hx (getElem_le_getElem hinc hle hi)

theorem Narrowed.raise (h : Narrowed table x lo hi) (hinc : table.toList.Pairwise (· < ·))
    (hmid : mid < hi) (hsize : mid < table.size) (hx : table[mid] ≤ x) : Narrowed table x (mid + 1) hi where
  lo_le_hi := hmid
  hi_le_size := h.hi_le_size
  below _ _ hlt := Nat.le_trans (getElem_le_getElem hinc (Nat.le_of_lt_succ hlt) hsize) hx
  above := h.above

theorem narrowed_countUpTo (hinc : table.toList.Pairwise (· < ·)) (hsize : hi ≤ table.size)
    (h : Narrowed table x lo hi) :
    Narrowed table x (countUpTo table x lo hi hsize) (countUpTo table x lo hi hsize) := by
  -- each comparison narrows the stretch, in the end down to nothing
  fun_induction countUpTo table x lo hi hsize with
  | case1 lo hi hsize hlt hx ih => exact ih (h.lower hinc (by omega) (by omega) hx)
  | case2 lo hi hsize hlt hx ih =>
    exact ih (h.raise hinc (by omega) (by omega) (Nat.le_of_not_lt hx))
  | case3 lo hi hsize hlt =>
    obtain rfl : lo = hi := Nat.le_antisymm h.lo_le_hi (Nat.le_of_not_lt hlt)
    exact h

theorem Narrowed.take_eq {k : Nat} (h : Narrowed table x k k) :
    table.toList.take k = table.toList.filter (· ≤ x) := by
  have hbelow : ∀ y ∈ table.toList.take k, decide (y ≤ x) = true := by
    intro y hy
    obtain ⟨i, hi, rfl⟩ := List.mem_take_iff_getElem.1 hy
    have hsize : i < table.size := by simp at hi; omega
    simpa using h.below i hsize (by omega)
  have habove : ∀ y ∈ table.toList.drop k, ¬ decide (y ≤ x) = true := by
    intro y hy
    obtain ⟨i, hi, rfl⟩ := List.mem_drop_iff_getElem.1 hy
    have hsize : k + i < table.size := by simp at hi; omega
    simpa using h.above (k + i) hsize (by omega)
  conv => rhs; rw [← List.take_append_drop k table.toList]
  rw [List.filter_append, List.filter_eq_self.2 hbelow, List.filter_eq_nil_iff.2 habove, List.append_nil]

end Table

structure LineTable where
  starts : Array Nat
  front : starts[0]? = some 0
  increasing : starts.toList.Pairwise (· < ·)

namespace LineTable

variable (t : LineTable) (offset : Nat)

def linesUpTo : Nat := countUpTo t.starts offset 0 t.starts.size (Nat.le_refl _)

theorem narrowed_linesUpTo : Narrowed t.starts offset (t.linesUpTo offset) (t.linesUpTo offset) :=
  narrowed_countUpTo t.increasing _ {
    lo_le_hi := Nat.zero_le _
    hi_le_size := Nat.le_refl _
    below := fun _ _ h => absurd h (Nat.not_lt_zero _)
    above := fun _ h hle => absurd h (Nat.not_lt_of_le hle) }

theorem linesUpTo_pos : 0 < t.linesUpTo offset := by
  obtain ⟨hsize, hfront⟩ := Array.getElem?_eq_some_iff.1 t.front
  refine Nat.pos_of_ne_zero fun hzero => ?_
  have habove := (t.narrowed_linesUpTo offset).above 0 hsize (by omega)
  omega

theorem linesUpTo_sub_one_lt : t.linesUpTo offset - 1 < t.starts.size := by
  have hpos := t.linesUpTo_pos offset
  have hle := (t.narrowed_linesUpTo offset).hi_le_size
  omega

theorem length_filter_starts : (t.starts.toList.filter (· ≤ offset)).length = t.linesUpTo offset := by
  have h := t.narrowed_linesUpTo offset
  rw [← h.take_eq, List.length_take, Array.length_toList, Nat.min_eq_left h.hi_le_size]

def lastStart : Nat :=
  have := t.linesUpTo_sub_one_lt offset
  t.starts[t.linesUpTo offset - 1]

theorem getLast?_filter_starts :
    (t.starts.toList.filter (· ≤ offset)).getLast? = some (t.lastStart offset) := by
  have hpos := t.linesUpTo_pos offset
  have hlt := t.linesUpTo_sub_one_lt offset
  rw [← (t.narrowed_linesUpTo offset).take_eq, List.getLast?_take, if_neg (by omega), lastStart,
    List.getElem?_eq_getElem (by simpa using hlt)]
  simp

end LineTable

def startsFrom (offset : Nat) : List Char → List Nat
  | [] => []
  | c :: s => if c = '\n' then (offset + 1) :: startsFrom (offset + 1) s else startsFrom (offset + 1) s

theorem lt_of_mem_startsFrom {offset start : Nat} {s : List Char} (h : start ∈ startsFrom offset s) :
    offset < start := by
  induction s generalizing offset with
  | nil => simp [startsFrom] at h
  | cons c s ih =>
    rw [startsFrom] at h
    split at h
    · obtain rfl | h := List.mem_cons.1 h
      · exact Nat.lt_succ_self offset
      · exact Nat.lt_of_succ_lt (ih h)
    · exact Nat.lt_of_succ_lt (ih h)

theorem pairwise_startsFrom (offset : Nat) (s : List Char) : (startsFrom offset s).Pairwise (· < ·) := by
  induction s generalizing offset with
  | nil => exact .nil
  | cons c s ih =>
    rw [startsFrom]
    split
    · exact .cons (fun _ h => lt_of_mem_startsFrom h) (ih _)
    · exact ih _

def LineTable.ofText (s : List Char) : LineTable where
  starts := (0 :: startsFrom 0 s).toArray
  front := rfl
  increasing := .cons (fun _ h => lt_of_mem_startsFrom h) (pairwise_startsFrom 0 s)

end CssExtract.Text
