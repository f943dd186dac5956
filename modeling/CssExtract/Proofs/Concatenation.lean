import CssExtract.Proofs.ScanShift
import CssExtract.Styled.CallSite

namespace CssExtract

def Span.Within (offset : Nat) (span : Span) : Prop := span.start ≤ offset ∧ span.stop ≤ offset

namespace Script

open Text

variable {a b s t v : List Char} {c : Char} {i j k n pending stop : Nat} {frame : Frame}

def seam : List Char := [';', '\n']

def EndsLine (v : List Char) : Prop := v = [] ∨ ∃ w, v = w ++ ['\n']

theorem EndsLine.drop (h : EndsLine v) (n : Nat) : EndsLine (v.drop n) := by
  rcases h with rfl | ⟨w, rfl⟩
  · exact .inl List.drop_nil
  · rcases Nat.lt_or_ge w.length n with hn | hn
    · exact .inl (List.drop_eq_nil_of_le (by simp; omega))
    · exact .inr ⟨w.drop n, List.drop_append_of_le_length hn⟩

theorem EndsLine.tail (h : EndsLine (c :: v)) : EndsLine v := h.drop 1

theorem EndsLine.ne_nil (h : EndsLine (c :: v)) (hc : c ≠ '\n') : v ≠ [] := by
  rintro rfl
  obtain h | ⟨w, hw⟩ := h
  · simp at h
  · obtain rfl : w = [] := by cases w <;> simp_all
    simp_all

theorem skip_lineComment_le (h : skip i [.lineComment] (a ++ '\n' :: b) = .ok stop) :
    stop ≤ i + (a.length + 1) := by
  induction a generalizing i with
  | nil =>
      rw [List.nil_append, skip_move (.lineEnd rfl), List.append_nil, skip] at h
      have := Except.ok.inj h
      simp only [List.length_nil]
      omega
  | cons c a ih =>
      rw [List.cons_append] at h
      rw [List.length_cons]
      by_cases hc : c = '\n'
      · rw [skip_move (.lineEnd hc), List.append_nil, skip] at h
        have := Except.ok.inj h
        omega
      · rw [skip_move (.lineChar hc), List.append_nil] at h
        have := ih h
        omega

/-- Only line comments end in a character of the seam. -/
def Frame.Clear (frame : Frame) : Prop := frame.closing ∈ seam → frame = .lineComment

theorem skip_le_of_seam (hclear : frame.Clear) (hv : EndsLine v) (hne : v ≠ [])
    (h : skip i [frame] (v ++ seam) = .ok stop) : stop ≤ i + v.length := by
  by_cases hline : frame = .lineComment
  · obtain ⟨w, rfl⟩ := hv.resolve_left hne
    subst hline
    rw [List.append_assoc] at h
    simpa using skip_lineComment_le h
  · have hopen : skip i ([] ++ [frame]) (v ++ seam) = .ok stop := h
    have hlast := getLast?_of_skip hopen (.inl hline)
    by_contra hlt
    obtain ⟨m, hm⟩ : ∃ m, stop - i = v.length + (m + 1) := ⟨stop - i - v.length - 1, by omega⟩
    rw [hm, List.take_length_add_append] at hlast
    refine hline (hclear ?_)
    rw [seam, List.take_succ_cons, List.getLast?_append, List.getLast?_cons, Option.some_or] at hlast
    rw [← Option.some.inj hlast]
    cases m <;> simp [seam]

theorem skip_seam (hclear : frame.Clear) (hv : EndsLine v) (hne : v ≠ [])
    (h : skip i [frame] (v ++ seam) = .ok stop) (b : List Char) :
    stop ≤ i + v.length ∧ skip i [frame] (v ++ (seam ++ b)) = .ok stop := by
  have hlow := le_of_skip h
  have hhigh := skip_le_of_seam hclear hv hne h
  obtain ⟨a, r, rfl, hstop⟩ : ∃ a r, v = a ++ r ∧ stop = i + a.length :=
    ⟨v.take (stop - i), v.drop (stop - i), by simp, by simp; omega⟩
  subst hstop
  refine ⟨hhigh, ?_⟩
  rw [List.append_assoc] at h ⊢
  exact skip_stable h (.inl (by simp [seam])) rfl i (r ++ (seam ++ b))

theorem clear_group {closer : Char} (h : isCloser closer = true) : (Frame.group closer).Clear := by
  intro hmem
  simp only [Frame.closing, seam, List.mem_cons, List.not_mem_nil, or_false] at hmem
  rcases hmem with rfl | rfl <;> simp [isCloser] at h

theorem clear_of_opens? {width : Nat} {next : Option Char} (h : opens? i c next = some (width, frame)) :
    frame.Clear := by
  intro hmem
  cases opens?_eq_some_iff.1 h with
  | string hquote => rcases hquote with rfl | rfl <;> simp [Frame.closing, seam] at hmem
  | template | blockComment => simp [Frame.closing, seam] at hmem
  | lineComment => rfl

theorem ne_newline_of_opens? {width : Nat} {next : Option Char}
    (h : opens? i c next = some (width, frame)) : c ≠ '\n' ∧ (width = 2 → next ≠ some '\n') := by
  cases opens?_eq_some_iff.1 h with
  | string hquote => exact ⟨by rintro rfl; simp at hquote, by simp⟩
  | template htick => exact ⟨by simp [htick], by simp⟩
  | lineComment hfirst hsecond => exact ⟨by simp [hfirst], by simp [hsecond]⟩
  | blockComment hfirst hsecond => exact ⟨by simp [hfirst], by simp [hsecond]⟩

theorem head?_seam (v b : List Char) : (v ++ (seam ++ b)).head? = (v ++ seam).head? := by
  cases v <;> rfl

theorem opened_seam {width : Nat} (hv : EndsLine (c :: v))
    (hopens : opens? i c (v ++ seam).head? = some (width, frame))
    (h : skip (i + width) [frame] ((v ++ seam).drop (width - 1)) = .ok stop) (b : List Char) :
    stop ≤ i + (v.length + 1) ∧
      skip (i + width) [frame] ((v ++ (seam ++ b)).drop (width - 1)) = .ok stop := by
  have hclear := clear_of_opens? hopens
  obtain ⟨hc, hnext⟩ := ne_newline_of_opens? hopens
  obtain ⟨d, v, rfl⟩ := List.exists_cons_of_ne_nil (hv.ne_nil hc)
  rcases (opens?_cases hopens).2 with rfl | ⟨rfl, -⟩
  · obtain ⟨hstop, hskip⟩ := skip_seam hclear hv.tail (by simp) h b
    exact ⟨by omega, hskip⟩
  · have hd : d ≠ '\n' := by simpa using hnext rfl
    obtain ⟨hstop, hskip⟩ := skip_seam hclear hv.tail.tail (hv.tail.ne_nil hd) h b
    exact ⟨by simp only [List.length_cons]; omega, hskip⟩

theorem comment?_seam_none (h : comment? i c (v ++ seam) = none) (b : List Char) :
    comment? i c (v ++ (seam ++ b)) = none := by
  rw [comment?_eq_none_iff] at h ⊢
  rwa [head?_seam]

theorem comment?_seam (hv : EndsLine (c :: v)) (h : comment? i c (v ++ seam) = some (.ok stop))
    (b : List Char) :
    stop ≤ i + (v.length + 1) ∧ comment? i c (v ++ (seam ++ b)) = some (.ok stop) := by
  obtain ⟨-, f, hopens, hskip⟩ := opens?_of_comment? h
  obtain ⟨hstop, hskip'⟩ := opened_seam hv hopens hskip b
  refine ⟨hstop, ?_⟩
  rw [List.drop_one] at hskip
  rw [Nat.add_one_sub_one, List.drop_one] at hskip'
  simp only [comment?, head?_seam, hopens] at h ⊢
  cases f with
  | lineComment | blockComment => exact congrArg some hskip'
  | _ => simp at h

theorem skipBlanksFrom_seam (hv : EndsLine v) (hpending : pending ≤ v.length)
    (h : skipBlanksFrom i pending (v ++ seam) = .ok k) (b : List Char) :
    k ≤ i + v.length ∧ skipBlanksFrom i pending (v ++ (seam ++ b)) = .ok k := by
  induction v generalizing i pending with
  | nil =>
      obtain rfl : pending = 0 := by simpa using hpending
      have hseam (t : List Char) : skipBlanksFrom i 0 (';' :: t) = .ok i := by
        rw [skipBlanksFrom, if_neg (by decide), comment?_of_ne (by decide)]
      obtain rfl := Except.ok.inj ((hseam _).symm.trans h)
      exact ⟨Nat.le_refl _, hseam _⟩
  | cons c v ih =>
      -- reading on from the next character
      have later {pending : Nat} (hpending : pending ≤ v.length)
          (h : skipBlanksFrom (i + 1) pending (v ++ seam) = .ok k) :
          k ≤ i + (c :: v).length ∧ skipBlanksFrom (i + 1) pending (v ++ (seam ++ b)) = .ok k := by
        obtain ⟨hk, hread⟩ := ih hv.tail hpending h
        exact ⟨by simp only [List.length_cons]; omega, hread⟩
      rw [List.cons_append] at h ⊢
      cases pending with
      | succ pending => exact later (by simpa using hpending) h
      | zero =>
          rw [skipBlanksFrom] at h ⊢
          split_ifs at h ⊢ with hblank
          · exact later (Nat.zero_le _) h
          · cases hcomment : comment? i c (v ++ seam) with
            | none =>
                rw [hcomment] at h
                rw [comment?_seam_none hcomment]
                obtain rfl := Except.ok.inj h
                exact ⟨Nat.le_add_right _ _, rfl⟩
            | some result =>
                rw [hcomment] at h
                obtain ⟨stop, rfl, hrest⟩ := bind_eq_ok_iff.1 h
                obtain ⟨hstop, hcomment'⟩ := comment?_seam hv hcomment b
                rw [hcomment']
                exact later (by omega) hrest

theorem takeWhile_seam (w t : List Char) :
    (w ++ ';' :: t).takeWhile isAsciiNamePart = w.takeWhile isAsciiNamePart := by
  induction w with
  | nil => rfl
  | cons c w ih => rw [List.cons_append, List.takeWhile_cons, List.takeWhile_cons, ih]

theorem nameLength?_seam (h : n ≤ v.length) (b : List Char) :
    nameLength? isAsciiNamePart ((v ++ (seam ++ b)).drop n) =
      nameLength? isAsciiNamePart ((v ++ seam).drop n) ∧
    ∀ length, nameLength? isAsciiNamePart ((v ++ seam).drop n) = some length →
      n + length ≤ v.length := by
  obtain ⟨a, w, rfl, rfl⟩ : ∃ a w, v = a ++ w ∧ n = a.length :=
    ⟨v.take n, v.drop n, by simp, (List.length_take_of_le h).symm⟩
  rw [List.append_assoc, List.append_assoc, List.drop_left, List.drop_left]
  cases w with
  | nil => exact ⟨rfl, by simp [seam, nameLength?, isNameStart]⟩
  | cons d w =>
      simp only [List.cons_append, nameLength?, seam, takeWhile_seam, List.nil_append, true_and]
      intro length hlength
      split_ifs at hlength
      obtain rfl := Option.some.inj hlength
      have := (List.takeWhile_sublist isAsciiNamePart (l := w)).length_le
      simp only [List.length_append, List.length_cons]
      omega

theorem readHead_seam {head found : HeadExtent} {tick : Option Nat} (hv : EndsLine v)
    (hpending : pending ≤ v.length) (hhead : head.stop ≤ i + v.length)
    (h : readHead i head pending (v ++ seam) = .ok (found, tick)) (b : List Char) :
    found.stop ≤ i + v.length ∧ (∀ j, tick = some j → j < i + v.length) ∧
      readHead i head pending (v ++ (seam ++ b)) = .ok (found, tick) := by
  induction v generalizing i head pending with
  | nil =>
      obtain rfl : pending = 0 := by simpa using hpending
      have hseam (t : List Char) : readHead i head 0 (';' :: t) = .ok (head, none) := by
        rw [readHead, if_neg (by decide), comment?_of_ne (by decide)]
        rfl
      obtain ⟨rfl, rfl⟩ := Prod.mk.inj (Except.ok.inj ((hseam _).symm.trans h))
      exact ⟨hhead, by simp, hseam _⟩
  | cons c v ih =>
      -- reading on from the next character
      have later {head : HeadExtent} {pending : Nat} (hpending : pending ≤ v.length)
          (hhead : head.stop ≤ i + (c :: v).length)
          (h : readHead (i + 1) head pending (v ++ seam) = .ok (found, tick)) :
          found.stop ≤ i + (c :: v).length ∧ (∀ j, tick = some j → j < i + (c :: v).length) ∧
            readHead (i + 1) head pending (v ++ (seam ++ b)) = .ok (found, tick) := by
        have hlength : i + 1 + v.length = i + (c :: v).length := by
          simp only [List.length_cons]
          omega
        obtain ⟨hstop, htick, hread⟩ := ih hv.tail hpending (hlength ▸ hhead) h
        rw [hlength] at hstop htick
        exact ⟨hstop, htick, hread⟩
      rw [List.cons_append] at h ⊢
      cases pending with
      | succ pending => exact later (by simpa using hpending) hhead h
      | zero =>
          rw [readHead] at h ⊢
          cases hcomment : comment? i c (v ++ seam) with
          | some result =>
              simp only [hcomment] at h
              split_ifs at h with hblank
              · rw [if_pos hblank]
                exact later (Nat.zero_le _) hhead h
              · obtain ⟨stop, rfl, hrest⟩ := bind_eq_ok_iff.1 h
                obtain ⟨hstop, hcomment'⟩ := comment?_seam hv hcomment b
                rw [if_neg hblank, hcomment']
                exact later (by omega) hhead hrest
          | none =>
              simp only [hcomment] at h
              simp only [comment?_seam_none hcomment]
              split_ifs at h ⊢ with hblank htick hdot hparen
              · exact later (Nat.zero_le _) hhead h
              · obtain ⟨rfl, rfl⟩ := Prod.mk.inj (Except.ok.inj h)
                exact ⟨hhead, by simp, rfl⟩
              · obtain ⟨name, hname, hrest⟩ := bind_eq_ok_iff.1 h
                obtain ⟨hstop, hname'⟩ := skipBlanksFrom_seam hv.tail (Nat.zero_le _) hname b
                have hlow := (skipBlanksFrom_bounds hname).1
                obtain ⟨hsame, hlength⟩ := nameLength?_seam (v := v) (n := name - (i + 1)) (by omega) b
                simp only [bind_eq_ok_iff, hname', Except.ok.injEq, exists_eq_left', hsame]
                cases hlong : nameLength? isAsciiNamePart ((v ++ seam).drop (name - (i + 1))) with
                | some length =>
                    have := hlength length hlong
                    rw [hlong] at hrest
                    exact later (by omega) (by simp only [List.length_cons]; omega) hrest
                | none =>
                    rw [hlong] at hrest
                    obtain ⟨rfl, rfl⟩ := Prod.mk.inj (Except.ok.inj hrest)
                    exact ⟨hhead, by simp, rfl⟩
              · obtain ⟨stop, hgroup, hrest⟩ := bind_eq_ok_iff.1 h
                have hne : v ≠ [] := hv.ne_nil (by rintro rfl; simp at hparen)
                obtain ⟨hstop, hgroup'⟩ := skip_seam (clear_group (by decide)) hv.tail hne hgroup b
                simp only [bind_eq_ok_iff, hgroup', Except.ok.injEq, exists_eq_left']
                exact later (by omega) (by simp only [List.length_cons]; omega) hrest
              · obtain ⟨rfl, rfl⟩ := Prod.mk.inj (Except.ok.inj h)
                exact ⟨hhead, by simp, rfl⟩

structure Pieces.Within (offset : Nat) (pieces : Pieces) : Prop where
  stop : pieces.stop ≤ offset
  holes : ∀ hole ∈ pieces.holes, hole.span.Within offset

theorem Pieces.Within.addText {offset : Nat} {pieces : Pieces} (h : pieces.Within offset)
    (text : List Char) : (pieces.addText text).Within offset := ⟨h.stop, h.holes⟩

theorem readPieces_seam {start : Nat} {pieces : Pieces} (hv : EndsLine v) (hpending : pending ≤ v.length)
    (h : readPieces start i pending (v ++ seam) = .ok pieces) (b : List Char) :
    pieces.Within (i + v.length) ∧
      readPieces start i pending (v ++ (seam ++ b)) = .ok pieces := by
  induction hn : v.length using Nat.strongRecOn generalizing i pending v pieces with
  | _ n ih =>
    cases v with
    | nil =>
        obtain rfl : pending = 0 := by simpa using hpending
        rw [List.nil_append, seam, readPieces_cons (by decide), readPieces_cons (by decide)] at h
        simp [readPieces, Except.map] at h
    | cons c v =>
        simp only [List.length_cons] at hn hpending
        -- reading on from the next character
        have later {pending : Nat} {pieces : Pieces} (hpending : pending ≤ v.length)
            (h : readPieces start (i + 1) pending (v ++ seam) = .ok pieces) :
            pieces.Within (i + n) ∧ readPieces start (i + 1) pending (v ++ (seam ++ b)) = .ok pieces := by
          have hread := ih _ (by omega) hv.tail hpending h rfl
          rwa [show i + 1 + v.length = i + n by omega] at hread
        rw [List.cons_append] at h ⊢
        cases pending with
        | succ pending => exact later (by omega) h
        | zero =>
            by_cases hback : c = '\\'
            · subst hback
              obtain ⟨d, v, rfl⟩ := List.exists_cons_of_ne_nil (hv.ne_nil (by decide))
              simp only [List.length_cons] at hn
              rw [List.cons_append, readPieces] at h ⊢
              obtain ⟨q, hq, rfl⟩ := map_eq_ok_iff.1 h
              obtain ⟨hwithin, hread⟩ := ih _ (by omega) hv.tail.tail (Nat.zero_le _) hq rfl
              rw [show i + 2 + v.length = i + n by omega] at hwithin
              exact ⟨hwithin.addText _, by rw [hread]; rfl⟩
            · rw [readPieces_cons hback] at h ⊢
              rw [head?_seam]
              split_ifs at h ⊢ with htick hhole
              · obtain rfl := Except.ok.inj h
                exact ⟨⟨by simp only; omega, by simp⟩, rfl⟩
              · obtain ⟨d, w, rfl⟩ := List.exists_cons_of_ne_nil (hv.ne_nil (by rintro rfl; simp at hhole))
                have hd : d ≠ '\n' := by
                  rintro rfl
                  simp at hhole
                simp only [List.length_cons] at hn
                rw [List.cons_append, List.tail_cons] at h ⊢
                obtain ⟨stop, hskip, hpieces⟩ := bind_eq_ok_iff.1 h
                obtain ⟨rest, hrest, hpiece⟩ := bind_eq_ok_iff.1 hpieces
                obtain rfl := Except.ok.inj hpiece
                obtain ⟨hstop, hskip'⟩ :=
                  skip_seam (clear_group (by decide)) hv.tail.tail (hv.tail.ne_nil hd) hskip b
                have hlow := le_of_skip hskip
                obtain ⟨hwithin, hread⟩ := later (by simp only [List.length_cons]; omega) hrest
                have hsource : (w ++ (seam ++ b)).take (stop - 1 - (i + 2)) =
                    (w ++ seam).take (stop - 1 - (i + 2)) := by
                  rw [List.take_append_of_le_length (by omega), List.take_append_of_le_length (by omega)]
                refine ⟨⟨hwithin.stop, List.forall_mem_cons.2 ⟨⟨?_, ?_⟩, hwithin.holes⟩⟩, ?_⟩
                · simp only
                  omega
                · simp only
                  omega
                · refine bind_eq_ok_iff.2 ⟨stop, hskip', bind_eq_ok_iff.2 ⟨rest, hread, ?_⟩⟩
                  rw [hsource]
              · obtain ⟨q, hq, rfl⟩ := map_eq_ok_iff.1 h
                obtain ⟨hwithin, hread⟩ := later (Nat.zero_le _) hq
                exact ⟨hwithin.addText _, by rw [hread]; rfl⟩

def RawTemplate.Within (offset : Nat) (template : RawTemplate) : Prop :=
  template.span.Within offset ∧ ∀ hole ∈ template.holes, hole.span.Within offset

def RawSite.Within (offset : Nat) (site : RawSite) : Prop :=
  site.span.Within offset ∧ ∀ template ∈ site.template, template.Within offset

theorem readTemplate_seam {template : RawTemplate} (ht : EndsLine t) (hi : i < t.length)
    (h : readTemplate (t ++ seam) i = .ok template) (b : List Char) :
    template.Within t.length ∧ readTemplate (t ++ (seam ++ b)) i = .ok template := by
  rw [readTemplate, List.drop_append_of_le_length hi] at h ⊢
  obtain ⟨pieces, hpieces, htemplate⟩ := bind_eq_ok_iff.1 h
  obtain rfl := Except.ok.inj htemplate
  obtain ⟨hwithin, hread⟩ := readPieces_seam (ht.drop _) (Nat.zero_le _) hpieces b
  rw [List.length_drop, Nat.add_sub_of_le hi] at hwithin
  exact ⟨⟨⟨Nat.le_of_lt hi, hwithin.stop⟩, hwithin.holes⟩, bind_eq_ok_iff.2 ⟨pieces, hread, rfl⟩⟩

theorem readSite?_seam {site : Option RawSite} {length : Nat} (ht : EndsLine t)
    (hi : i + length ≤ t.length) (h : readSite? (t ++ seam) i length = .ok site) (b : List Char) :
    (∀ raw ∈ site, raw.Within t.length) ∧
      readSite? (t ++ (seam ++ b)) i length = .ok site := by
  rw [readSite?, List.drop_append_of_le_length hi] at h ⊢
  obtain ⟨⟨head, tick⟩, hhead, hsite⟩ := bind_eq_ok_iff.1 h
  obtain ⟨hstop, htick, hread⟩ := readHead_seam (ht.drop _) (Nat.zero_le _) (by simp) hhead b
  rw [List.length_drop, Nat.add_sub_of_le hi] at hstop htick
  have hstart : i ≤ t.length := Nat.le_trans (Nat.le_add_right i length) hi
  have hlow := (readHead_within hhead (Nat.le_refl _) (Nat.le_refl _) (by simp)).low_le
  simp only at hlow
  have hslice : slice (t ++ (seam ++ b)) ⟨i, head.stop⟩ = slice (t ++ seam) ⟨i, head.stop⟩ := by
    simp only [slice]
    rw [List.drop_append_of_le_length (by omega), List.drop_append_of_le_length (by omega),
      List.take_append_of_le_length (by simp; omega), List.take_append_of_le_length (by simp; omega)]
  simp only [bind_eq_ok_iff, hread, Except.ok.injEq, exists_eq_left', hslice]
  cases tick with
  | none =>
      obtain rfl := Except.ok.inj hsite
      refine ⟨fun raw hraw => ?_, rfl⟩
      split_ifs at hraw
      · obtain rfl := Option.some.inj hraw
        exact ⟨⟨hstart, hstop⟩, by simp⟩
      · simp at hraw
  | some j =>
      obtain ⟨template, htemplate, hfound⟩ := bind_eq_ok_iff.1 hsite
      obtain rfl := Except.ok.inj hfound
      obtain ⟨hwithin, hread'⟩ := readTemplate_seam ht (htick j rfl) htemplate b
      refine ⟨?_, bind_eq_ok_iff.2 ⟨template, hread', rfl⟩⟩
      rintro _ ⟨⟩
      refine ⟨⟨hstart, hwithin.1.2⟩, ?_⟩
      rintro _ ⟨⟩
      exact hwithin

theorem isPrefixOf_seam {tag : List Char} (htag : ∀ c ∈ tag, c ∉ seam) (v b : List Char) :
    tag.isPrefixOf (v ++ (seam ++ b)) = tag.isPrefixOf v := by
  induction tag generalizing v with
  | nil => simp
  | cons d tag ih =>
      obtain ⟨hd, htag⟩ := List.forall_mem_cons.1 htag
      cases v with
      | nil =>
          have hne : d ≠ ';' := by
            rintro rfl
            exact hd (by decide)
          simp [seam, List.isPrefixOf, hne]
      | cons c v => rw [List.cons_append, List.isPrefixOf, List.isPrefixOf, ih htag]

theorem startsTag_seam {tag : List Char} (htag : ∀ c ∈ tag, c ∉ seam)
    (previous : Option Char) (v b : List Char) :
    startsTag tag previous (v ++ (seam ++ b)) = startsTag tag previous (v ++ seam) := by
  have hprefix := isPrefixOf_seam htag v []
  rw [List.append_nil] at hprefix
  rw [startsTag, startsTag, isPrefixOf_seam htag, hprefix]
  cases hv : tag.isPrefixOf v with
  | false => rfl
  | true =>
      have hle := (List.isPrefixOf_iff_prefix.1 hv).length_le
      rw [List.drop_append_of_le_length hle, List.drop_append_of_le_length hle, head?_seam]

theorem length_le_of_startsTag_seam {tag : List Char} (htag : ∀ c ∈ tag, c ∉ seam)
    {previous : Option Char} (h : startsTag tag previous (v ++ seam) = true) : tag.length ≤ v.length := by
  have hprefix := isPrefixOf_seam htag v []
  rw [List.append_nil] at hprefix
  simp only [startsTag, hprefix, Bool.and_eq_true] at h
  exact (List.isPrefixOf_iff_prefix.1 h.1.1).length_le

theorem sitesFrom_seam_char {source tag : List Char} {previous : Option Char} (hname : tag ≠ [])
    (htag : ∀ c ∈ tag, c ∉ seam) (hc : c ∈ seam) :
    sitesFrom source tag i previous 0 (c :: s) = sitesFrom source tag (i + 1) (some c) 0 s := by
  obtain ⟨d, tag, rfl⟩ := List.exists_cons_of_ne_nil hname
  have hne : d ≠ c := by
    rintro rfl
    exact htag d (by simp) hc
  have hopens : opens? i c s.head? = none := by
    simp only [seam, List.mem_cons, List.not_mem_nil, or_false] at hc
    rcases hc with rfl | rfl <;> simp [opens?]
  rw [sitesFrom, hopens]
  simp [startsTag, List.isPrefixOf, hne]

theorem sitesFrom_seam_self {source tag : List Char} {previous : Option Char} (hname : tag ≠ [])
    (htag : ∀ c ∈ tag, c ∉ seam) (i : Nat) (s : List Char) :
    sitesFrom source tag i previous 0 (seam ++ s) = sitesFrom source tag (i + 2) (some '\n') 0 s := by
  rw [show seam ++ s = ';' :: '\n' :: s from rfl, sitesFrom_seam_char hname htag (by decide),
    sitesFrom_seam_char hname htag (by decide)]

theorem sitesFrom_seam {tag : List Char} {previous : Option Char} {raws : List RawSite}
    (hname : tag ≠ []) (htag : ∀ c ∈ tag, c ∉ seam) (ht : EndsLine t)
    (hpending : pending ≤ v.length) (hv : t.drop i = v) (hi : i + v.length = t.length)
    (h : sitesFrom (t ++ seam) tag i previous pending (v ++ seam) = .ok raws) (b : List Char) :
    (∀ raw ∈ raws, raw.Within t.length) ∧
      sitesFrom (t ++ (seam ++ b)) tag i previous pending (v ++ (seam ++ b)) =
        (sitesFrom (t ++ (seam ++ b)) tag (t.length + 2) (some '\n') 0 b).map (raws ++ ·) := by
  induction v generalizing i previous pending raws with
  | nil =>
      obtain rfl : pending = 0 := by simpa using hpending
      obtain rfl : i = t.length := hi
      have hend : sitesFrom (t ++ seam) tag t.length previous 0 (seam ++ []) = _ :=
        sitesFrom_seam_self hname htag t.length []
      rw [List.append_nil, sitesFrom] at hend
      obtain rfl := Except.ok.inj (hend.symm.trans h)
      refine ⟨by simp, ?_⟩
      rw [List.nil_append, sitesFrom_seam_self hname htag]
      cases sitesFrom (t ++ (seam ++ b)) tag (t.length + 2) (some '\n') 0 b <;> rfl
  | cons c v ih =>
      have hline : EndsLine (c :: v) := hv ▸ ht.drop i
      have hv' : t.drop (i + 1) = v := by rw [← List.drop_drop, hv]; rfl
      simp only [List.length_cons] at hi hpending
      -- reading on from the next character
      have later {pending : Nat} {raws : List RawSite} (hpending : pending ≤ v.length)
          (h : sitesFrom (t ++ seam) tag (i + 1) (some c) pending (v ++ seam) = .ok raws) :
          (∀ raw ∈ raws, raw.Within t.length) ∧
            sitesFrom (t ++ (seam ++ b)) tag (i + 1) (some c) pending (v ++ (seam ++ b)) =
              (sitesFrom (t ++ (seam ++ b)) tag (t.length + 2) (some '\n') 0 b).map (raws ++ ·) :=
        ih hpending hv' (by omega) h
      rw [List.cons_append] at h ⊢
      cases pending with
      | succ pending => exact later (by omega) h
      | zero =>
          rw [sitesFrom] at h ⊢
          rw [head?_seam]
          cases hopens : opens? i c (v ++ seam).head? with
          | some found =>
              obtain ⟨width, frame⟩ := found
              simp only [hopens] at h ⊢
              obtain ⟨stop, hskip, hrest⟩ := bind_eq_ok_iff.1 h
              obtain ⟨hstop, hskip'⟩ := opened_seam hline hopens hskip b
              rw [hskip']
              exact later (by omega) hrest
          | none =>
              have hstart := startsTag_seam htag previous (c :: v) b
              rw [List.cons_append, List.cons_append] at hstart
              simp only [hopens, hstart] at h ⊢
              simp only [List.isEmpty_iff, hname, if_false] at h ⊢
              split_ifs at h ⊢ with htagged
              · have hlength : tag.length ≤ (c :: v).length := length_le_of_startsTag_seam htag htagged
                simp only [List.length_cons] at hlength
                obtain ⟨site, hsite, hsites⟩ := bind_eq_ok_iff.1 h
                obtain ⟨hwithin, hsite'⟩ := readSite?_seam ht (by omega) hsite b
                rw [hsite']
                cases site with
                | none => exact later (by omega) hsites
                | some raw =>
                    have hraw := hwithin raw rfl
                    obtain ⟨rest, hrest, hraws⟩ := bind_eq_ok_iff.1 hsites
                    obtain rfl := Except.ok.inj hraws
                    obtain ⟨hrests, hread⟩ := later (by have := hraw.1.2; omega) hrest
                    refine ⟨List.forall_mem_cons.2 ⟨hraw, hrests⟩, ?_⟩
                    simp only [bind, Except.bind, hread]
                    cases sitesFrom (t ++ (seam ++ b)) tag (t.length + 2) (some '\n') 0 b <;> rfl
              · exact later (Nat.zero_le _) h

/-- What the scanner finds in a text that comes after the seam is what it finds there alone. -/
theorem findSites_seam {tag : List Char} {raws : List RawSite} (hname : tag ≠ [])
    (htag : ∀ c ∈ tag, c ∉ seam) (ht : EndsLine t) (h : findSites (t ++ seam) tag = .ok raws)
    (b : List Char) :
    (∀ raw ∈ raws, raw.Within t.length) ∧
      findSites (t ++ seam ++ b) tag = (shifted (t ++ seam).length
        (List.map (.shift (t ++ seam).length)) (findSites b tag)).map (raws ++ ·) := by
  obtain ⟨hwithin, hread⟩ :=
    sitesFrom_seam hname htag ht (Nat.zero_le _) (List.drop_zero) (Nat.zero_add _) h b
  refine ⟨hwithin, ?_⟩
  rw [← sitesFrom_after (t ++ seam) b tag (show joined (some '\n') = false by decide),
    findSites, List.append_assoc, hread, List.length_append]
  rfl

end Script

def Position.down (n : Nat) (pos : Position) : Position := { pos with line := pos.line + n }

def Location.down (n : Nat) (loc : Location) : Location :=
  { loc with start := loc.start.down n, stop := loc.stop.map (.down n) }

namespace Text

variable {s t w : List Char} {offset : Nat}

theorem advance_append (pos : Position) (t : List Char) (h : offset ≤ s.length) :
    advance pos offset (s ++ t) = advance pos offset s := by
  induction s generalizing pos offset with
  | nil =>
      obtain rfl : offset = 0 := by simpa using h
      simp [advance]
  | cons c s ih =>
      cases offset with
      | zero => simp [advance]
      | succ offset => exact ih _ (by simpa using h)

theorem advance_add (pos : Position) (offset : Nat) (s t : List Char) :
    advance pos (offset + s.length) (s ++ t) = advance (advance pos s.length s) offset t := by
  induction s generalizing pos with
  | nil => simp [advance]
  | cons c s ih => exact ih _

theorem advance_down (pos : Position) (n offset : Nat) (s : List Char) :
    advance (pos.down n) offset s = (advance pos offset s).down n := by
  induction s generalizing pos offset with
  | nil => cases offset <;> rfl
  | cons c s ih =>
      cases offset with
      | zero => rfl
      | succ offset =>
          rw [advance, advance, ← ih]
          congr 1
          split_ifs
          · simp [Position.down, Nat.add_right_comm]
          · rfl

theorem column_advance_line (pos : Position) (w : List Char) :
    (advance pos (w ++ ['\n']).length (w ++ ['\n'])).column = 0 := by
  induction w generalizing pos with
  | nil => rfl
  | cons c w ih => exact ih _

theorem position_after (w s : List Char) (offset : Nat) :
    position (w ++ ['\n'] ++ s) (offset + (w ++ ['\n']).length) =
      (position s offset).down ((w ++ ['\n']).count '\n') := by
  have hstart : advance ⟨1, 0⟩ (w ++ ['\n']).length (w ++ ['\n']) =
      Position.down ((w ++ ['\n']).count '\n') ⟨1, 0⟩ := by
    have hline := advance_line (w ++ ['\n']) ⟨1, 0⟩ (Nat.le_refl _)
    rw [List.take_length] at hline
    rw [Position.mk.injEq]
    exact ⟨hline, column_advance_line _ _⟩
  rw [position_eq_advance, advance_add, hstart, advance_down, position_eq_advance]

theorem location_append (filename : Option String) {span : Span} (t : List Char)
    (h : span.Within s.length) : location (s ++ t) filename span = location s filename span := by
  simp only [location, position_eq_advance, advance_append _ _ h.1, advance_append _ _ h.2]

theorem location_after (filename : Option String) (w s : List Char) (span : Span) :
    location (w ++ ['\n'] ++ s) filename (span.shift (w ++ ['\n']).length) =
      (location s filename span).down ((w ++ ['\n']).count '\n') := by
  simp only [location, Span.shift, position_after]
  rfl

end Text

namespace Styled

open Script Text

variable {a b t tag : List Char} {filename : Option String}

/-- A call site with the places of its template and of the expressions in it. -/
structure ScannedSite where
  span : Span
  head : String
  template : Option Template

def scannedSite (source : List Char) (filename : Option String) (raw : RawSite) : ScannedSite :=
  ⟨raw.span, raw.head, raw.template.map (templateOf source filename)⟩

def scan (source tag : List Char) (filename : Option String) : Except ScanError (List ScannedSite) :=
  (findSites source tag).map (·.map (scannedSite source filename))

def Template.down (n : Nat) (template : Template) : Template :=
  { template with
    holes := template.holes.map fun hole => { hole with loc := hole.loc.map (.down n) }
    loc := template.loc.map (.down n) }

/-- The same site so many characters and lines further on. -/
def ScannedSite.moved (offset lines : Nat) (site : ScannedSite) : ScannedSite :=
  { site with span := site.span.shift offset, template := site.template.map (.down lines) }

theorem templateOf_append {template : RawTemplate} (h : template.Within t.length) (b : List Char) :
    templateOf (t ++ b) filename template = templateOf t filename template := by
  simp only [templateOf, location_append filename b h.1, Template.mk.injEq, true_and, and_true]
  refine List.map_congr_left fun hole hhole => ?_
  rw [location_append filename b (h.2 hole hhole)]

theorem templateOf_after (w b : List Char) (template : RawTemplate) :
    templateOf (w ++ ['\n'] ++ b) filename (template.shift (w ++ ['\n']).length) =
      (templateOf b filename template).down ((w ++ ['\n']).count '\n') := by
  simp only [templateOf, RawTemplate.shift, Template.down, location_after, List.map_map,
    Option.map_some, Template.mk.injEq, true_and, and_true]
  refine List.map_congr_left fun hole _ => ?_
  simp only [Function.comp_apply, RawHole.shift, location_after]
  rfl

theorem scannedSite_append {raw : RawSite} (h : raw.Within t.length) (b : List Char) :
    scannedSite (t ++ b) filename raw = scannedSite t filename raw := by
  simp only [scannedSite, ScannedSite.mk.injEq, true_and]
  exact Option.map_congr fun template htemplate => templateOf_append (h.2 template htemplate) b

theorem scannedSite_after (w b : List Char) (raw : RawSite) :
    scannedSite (w ++ ['\n'] ++ b) filename (raw.shift (w ++ ['\n']).length) =
      (scannedSite b filename raw).moved (w ++ ['\n']).length ((w ++ ['\n']).count '\n') := by
  simp only [scannedSite, RawSite.shift, ScannedSite.moved, Option.map_map, ScannedSite.mk.injEq,
    true_and]
  exact Option.map_congr fun template _ => templateOf_after w b template

theorem exists_raws {sites : List ScannedSite} (h : scan t tag filename = .ok sites) :
    ∃ raws, findSites t tag = .ok raws ∧ sites = raws.map (scannedSite t filename) := by
  obtain ⟨raws, hraws, rfl⟩ := map_eq_ok_iff.1 h
  exact ⟨raws, hraws, rfl⟩

/-- Code that comes after a line with a semicolon only neither adds, drops nor changes a call site
before it, and is itself scanned as if it stood alone. -/
theorem scan_append {sites : List ScannedSite} (hname : tag ≠ [])
    (htag : ∀ c ∈ tag, c ≠ ';' ∧ c ≠ '\n') (h : scan (a ++ ['\n', ';', '\n']) tag filename = .ok sites)
    (b : List Char) :
    scan (a ++ ['\n', ';', '\n'] ++ b) tag filename =
      match scan b tag filename with
      | .ok later => .ok (sites ++
          later.map (.moved (a.length + 3) ((a ++ ['\n', ';', '\n']).count '\n')))
      | .error e => .error { e with offset := e.offset + (a.length + 3) } := by
  have hseam : a ++ ['\n', ';', '\n'] = a ++ ['\n'] ++ seam := by simp [seam]
  have hline : a ++ ['\n', ';', '\n'] = a ++ ['\n', ';'] ++ ['\n'] := by simp
  have hlength : (a ++ ['\n', ';', '\n']).length = a.length + 3 := List.length_append
  have htag' : ∀ c ∈ tag, c ∉ seam := fun c hc => by simpa [seam] using htag c hc
  obtain ⟨raws, hraws, rfl⟩ := exists_raws h
  obtain ⟨hwithin, hfound⟩ := findSites_seam hname htag' (.inr ⟨a, rfl⟩) (hseam ▸ hraws) b
  rw [← hseam, hlength] at hfound
  have hbefore : raws.map (scannedSite (a ++ ['\n', ';', '\n'] ++ b) filename) =
      raws.map (scannedSite (a ++ ['\n', ';', '\n']) filename) := by
    refine List.map_congr_left fun raw hraw => ?_
    rw [hseam, List.append_assoc, scannedSite_append (hwithin raw hraw), scannedSite_append (hwithin raw hraw)]
  have hafter (raw : RawSite) : scannedSite (a ++ ['\n', ';', '\n'] ++ b) filename (raw.shift (a.length + 3)) =
      (scannedSite b filename raw).moved (a.length + 3) ((a ++ ['\n', ';', '\n']).count '\n') := by
    rw [← hlength, hline]
    exact scannedSite_after _ b raw
  rw [scan, scan, hfound]
  cases findSites b tag with
  | error e => rfl
  | ok later =>
      simp only [shifted, Except.map, List.map_append, List.map_map, hbefore, Except.ok.injEq,
        List.append_cancel_left_eq]
      exact List.map_congr_left fun raw _ => hafter raw

def boxText : List Char := "const A = styled.div`color: ${c}`; // styled.p`".toList

def linkText : List Char := "styled(A)`width: ${w}px`".toList

def boxSite : RawSite :=
  ⟨⟨10, 33⟩, "styled.div", some ⟨⟨20, 33⟩, "color: ", [⟨"c", ⟨30, 31⟩, ""⟩]⟩⟩

theorem findSites_box :
    findSites (boxText ++ ['\n', ';', '\n']) "styled".toList = .ok [boxSite] := by
  decide +kernel

theorem boxThenLink_scanned :
    "styled".toList ≠ [] ∧ (∀ c ∈ "styled".toList, c ≠ ';' ∧ c ≠ '\n') ∧
    ∃ sites, scan (boxText ++ ['\n', ';', '\n']) "styled".toList none = .ok sites ∧ sites.length = 1 ∧
      scan (boxText ++ ['\n', ';', '\n'] ++ linkText) "styled".toList none =
        match scan linkText "styled".toList none with
        | .ok later => .ok (sites ++ later.map (.moved 50 2))
        | .error e => .error { e with offset := e.offset + 50 } := by
  have hbox : scan (boxText ++ ['\n', ';', '\n']) "styled".toList none =
      .ok [scannedSite (boxText ++ ['\n', ';', '\n']) none boxSite] := by
    rw [scan, findSites_box]
    rfl
  have htag : ∀ c ∈ "styled".toList, c ≠ ';' ∧ c ≠ '\n' := by simp
  exact ⟨by decide, htag, _, hbox, rfl, scan_append (by decide) htag hbox linkText⟩

end Styled

end CssExtract
