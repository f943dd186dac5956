import CssExtract.Text.Lines

namespace CssExtract

structure Position where
  line : Nat
  column : Nat
deriving DecidableEq, Repr

structure Span where
  start : Nat
  stop : Nat
deriving DecidableEq, Repr

structure Location where
  start : Position
  stop : Option Position
  filename : Option String
deriving DecidableEq, Repr

def Location.render (loc : Location) : String :=
  let file := match loc.filename with
    | some name => if name.isEmpty then "" else name ++ ":"
    | none => ""
  file ++ toString loc.start.line ++ ":" ++ toString loc.start.column

namespace Text

/-- Steps `offset` characters on from a position. Offsets beyond the end stay on the last line. -/
def advance (pos : Position) : Nat → List Char → Position
  | 0, _ => pos
  | offset, [] => ⟨pos.line, pos.column + offset⟩
  | offset + 1, c :: cs =>
    advance (if c = '\n' then ⟨pos.line + 1, 0⟩ else ⟨pos.line, pos.column + 1⟩) offset cs

def LineTable.position (t : LineTable) (offset : Nat) : Position :=
  ⟨t.linesUpTo offset, offset - t.lastStart offset⟩

def position (s : List Char) (offset : Nat) : Position := (LineTable.ofText s).position offset

def location (s : List Char) (filename : Option String) (span : Span) : Location :=
  ⟨position s span.start, some (position s span.stop), filename⟩

def slice (s : List Char) (span : Span) : List Char :=
  (s.drop span.start).take (span.stop - span.start)

/-- Steps through a text that goes on from an offset `first`, in a line that has started at `start`:
each newline that is passed is the next entry of the table. -/
theorem advance_startsFrom (line : Nat) {start first : Nat} (h : start ≤ first) (offset : Nat)
    (s : List Char) :
    advance ⟨line, first - start⟩ offset s =
      let starts := (startsFrom first s).filter (· ≤ first + offset)
      ⟨line + starts.length, first + offset - starts.getLastD start⟩ := by
  induction s generalizing line start first offset with
  | nil =>
    cases offset with
    | zero => rfl
    | succ offset => simp [advance, startsFrom]; omega
  | cons c s ih =>
    cases offset with
    | zero =>
      have hnone : (startsFrom first (c :: s)).filter (· ≤ first + 0) = [] :=
        List.filter_eq_nil_iff.2 fun x hx => by simp [lt_of_mem_startsFrom hx]
      rw [hnone]
      rfl
    | succ offset =>
      have hnext : first + (offset + 1) = first + 1 + offset := by omega
      rw [advance, startsFrom, hnext]
      by_cases hc : c = '\n'
      · have hstep := ih (line + 1) (Nat.le_refl (first + 1)) offset
        rw [Nat.sub_self] at hstep
        have hkept : ((first + 1) :: startsFrom (first + 1) s).filter (· ≤ first + 1 + offset) =
            (first + 1) :: (startsFrom (first + 1) s).filter (· ≤ first + 1 + offset) :=
          List.filter_cons_of_pos (by simp)
        rw [if_pos hc, if_pos hc, hstep, hkept]
        simp only [List.length_cons, List.getLastD_cons, Nat.add_assoc, Nat.add_comm 1]
      · have hcolumn : first - start + 1 = first + 1 - start := by omega
        rw [if_neg hc, if_neg hc, hcolumn]
        exact ih line (Nat.le_succ_of_le h) offset

theorem position_eq_advance (s : List Char) (offset : Nat) : position s offset = advance ⟨1, 0⟩ offset s := by
  have hstarts : (LineTable.ofText s).starts.toList.filter (· ≤ offset) =
      0 :: (startsFrom 0 s).filter (· ≤ offset) := List.filter_cons_of_pos (by simp)
  have hline := (LineTable.ofText s).length_filter_starts offset
  have hlast := (LineTable.ofText s).getLast?_filter_starts offset
  rw [hstarts] at hline hlast
  have hsteps := advance_startsFrom 1 (Nat.le_refl 0) offset s
  rw [Nat.zero_add] at hsteps
  rw [List.getLast?_cons, Option.some.injEq, ← List.getLastD_eq_getLast?] at hlast
  rw [position, LineTable.position, ← hline, ← hlast, List.length_cons, Nat.add_comm]
  exact hsteps.symm

theorem advance_line (s : List Char) (pos : Position) {offset : Nat} (h : offset ≤ s.length) :
    (advance pos offset s).line = pos.line + (s.take offset).count '\n' := by
  induction s generalizing pos offset with
  | nil =>
    obtain rfl : offset = 0 := by simpa using h
    simp [advance]
  | cons c cs ih =>
    cases offset with
    | zero => simp [advance]
    | succ offset =>
      rw [advance, ih _ (by simpa using h)]
      by_cases hc : c = '\n'
      · simp [hc]; omega
      · simp [hc]

theorem advance_cases (pos : Position) (offset : Nat) (s : List Char) :
    pos.line < (advance pos offset s).line ∨ advance pos offset s = ⟨pos.line, pos.column + offset⟩ := by
  induction offset generalizing pos s with
  | zero => exact .inr rfl
  | succ offset ih =>
    cases s with
    | nil => exact .inr rfl
    | cons c s =>
      rw [advance]
      split
      · obtain h | h := ih ⟨pos.line + 1, 0⟩ s
        · exact .inl (Nat.lt_of_succ_lt h)
        · exact .inl (by simp [h])
      · obtain h | h := ih ⟨pos.line, pos.column + 1⟩ s
        · exact .inl h
        · exact .inr (by rw [h, Nat.add_assoc, Nat.add_comm 1])

theorem advance_advance (pos : Position) (m n : Nat) (s : List Char) :
    advance (advance pos m s) n (s.drop m) = advance pos (m + n) s := by
  induction m generalizing pos s with
  | zero => simp [advance]
  | succ m ih =>
    rw [Nat.add_right_comm]
    cases s with
    | nil => cases n <;> simp [advance, Nat.add_comm, Nat.add_left_comm]
    | cons c s => exact ih _ s

theorem position_inj {s : List Char} {m n : Nat} : position s m = position s n ↔ m = n := by
  refine ⟨fun h => ?_, congrArg _⟩
  have eq_zero {m n : Nat} (h : position s m = position s (m + n)) : n = 0 := by
    rw [position_eq_advance, position_eq_advance, ← advance_advance] at h
    obtain hline | hsame := advance_cases (advance ⟨1, 0⟩ m s) n (s.drop m)
    · rw [← h] at hline
      exact absurd hline (Nat.lt_irrefl _)
    · rw [hsame] at h
      have := congrArg Position.column h
      simp only at this
      omega
  obtain hle | hle := Nat.le_total m n
  · obtain ⟨k, rfl⟩ := Nat.exists_eq_add_of_le hle
    rw [eq_zero h, Nat.add_zero]
  · obtain ⟨k, rfl⟩ := Nat.exists_eq_add_of_le hle
    rw [eq_zero h.symm, Nat.add_zero]

end Text

end CssExtract
