import CssExtract.Styled.Extraction

namespace CssExtract.Styled

/-- The last text is the first, which goes on from offset `i`, with the span of every edit given up
for the edit's text and all that stands between the spans kept. -/
inductive Spliced : Nat → List Char → List (Span × List Char) → List Char → Prop
  | rest (i : Nat) (s : List Char) : Spliced i s [] s
  | edit {i : Nat} {kept given s text result : List Char} {span : Span}
      {edits : List (Span × List Char)} (start : span.start = i + kept.length)
      (stop : span.stop = span.start + given.length) (next : Spliced span.stop s edits result) :
      Spliced i (kept ++ given ++ s) ((span, text) :: edits) (kept ++ text ++ result)

theorem splice_spliced {edits : List (Span × List Char)} {i : Nat} {s : List Char}
    (hin : ∀ edit ∈ edits, i ≤ edit.1.start ∧ edit.1.start ≤ edit.1.stop ∧ edit.1.stop ≤ i + s.length)
    (hpair : edits.Pairwise fun a b => a.1.stop ≤ b.1.start) :
    Spliced i s edits (splice i s edits) := by
  induction edits generalizing i s with
  | nil => exact .rest i s
  | cons edit edits ih =>
      obtain ⟨span, text⟩ := edit
      obtain ⟨hhead, hpair⟩ := List.pairwise_cons.1 hpair
      obtain ⟨hlow, hspan, hhigh⟩ := hin _ List.mem_cons_self
      simp only at hlow hspan hhigh
      let kept := s.take (span.start - i)
      let given := (s.drop (span.start - i)).take (span.stop - span.start)
      have hsplit : s = kept ++ given ++ s.drop (span.stop - i) := by
        have : span.stop - i = (span.start - i) + (span.stop - span.start) := by omega
        simp only [kept, given, List.append_assoc, this]
        rw [← List.drop_drop, List.take_append_drop, List.take_append_drop]
      have hrest : Spliced span.stop (s.drop (span.stop - i)) edits
          (splice span.stop (s.drop (span.stop - i)) edits) := by
        refine ih (fun edit hm => ?_) hpair
        have hafter : span.stop ≤ edit.1.start := hhead edit hm
        obtain ⟨-, hspan', hhigh'⟩ := hin edit (List.mem_cons_of_mem _ hm)
        simp only [List.length_drop]
        omega
      have h : Spliced i (kept ++ given ++ s.drop (span.stop - i)) ((span, text) :: edits)
          (kept ++ text ++ splice span.stop (s.drop (span.stop - i)) edits) :=
        .edit (by simp [kept]; omega) (by simp [given]; omega) hrest
      rwa [← hsplit] at h

namespace Spliced

variable {i : Nat} {a s text result : List Char} {edits : List (Span × List Char)}

theorem eq_of_no_edits (h : Spliced i s [] result) : result = s := by
  generalize hedits : [] = edits at h
  cases h with
  | rest => rfl
  | edit => simp at hedits

theorem exists_append (h : Spliced i (a ++ s) edits result)
    (hlow : ∀ edit ∈ edits, i + a.length ≤ edit.1.start) :
    ∃ r, result = a ++ r ∧ Spliced (i + a.length) s edits r := by
  generalize hs : a ++ s = t at h
  cases h with
  | rest => exact ⟨s, hs.symm, .rest _ s⟩
  | @edit _ kept given s' text result span edits start stop next =>
      have hle : i + a.length ≤ span.start := hlow _ List.mem_cons_self
      rw [List.append_assoc] at hs
      obtain ⟨kept, rfl, rfl⟩ | ⟨later, rfl, hgiven⟩ := List.append_eq_append_iff.1 hs
      · refine ⟨kept ++ text ++ result, by simp, ?_⟩
        rw [← List.append_assoc]
        exact .edit (by simp at start; omega) stop next
      · obtain rfl : later = [] := List.eq_nil_of_length_eq_zero (by simp at hle; omega)
        obtain rfl : s = given ++ s' := by simpa using hgiven.symm
        have hedit : Spliced (i + kept.length) ([] ++ given ++ s') _ ([] ++ text ++ result) :=
          .edit (by simpa using start) stop next
        exact ⟨text ++ result, by simp, by simpa using hedit⟩

theorem exists_edit (h : Spliced i (a ++ s) ((⟨i, i + a.length⟩, text) :: edits) result) :
    ∃ r, result = text ++ r ∧ Spliced (i + a.length) s edits r := by
  generalize hs : a ++ s = t at h
  cases h with
  | @edit _ kept given s' _ result _ _ start stop next =>
      simp only at start stop next
      obtain rfl : kept = [] := List.eq_nil_of_length_eq_zero (by omega)
      obtain ⟨rfl, rfl⟩ := List.append_inj hs (by simp; omega)
      exact ⟨result, by simp, next⟩

end Spliced

end CssExtract.Styled
