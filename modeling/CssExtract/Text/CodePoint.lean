namespace CssExtract.Text

abbrev Intervals := List (Nat × Nat)

def Intervals.contains (table : Intervals) (c : Char) : Bool :=
  table.any fun (lo, hi) => decide (lo ≤ c.toNat) && decide (c.toNat ≤ hi)

theorem Intervals.contains_iff {table : Intervals} {c : Char} :
    table.contains c = true ↔ ∃ i ∈ table, i.1 ≤ c.toNat ∧ c.toNat ≤ i.2 := by
  simp [Intervals.contains]

end CssExtract.Text
