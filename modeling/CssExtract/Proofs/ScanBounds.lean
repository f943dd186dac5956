import CssExtract.Proofs.CodeDepth
import CssExtract.Script.Site

namespace CssExtract.Script

open Text

theorem skipBlanksFrom_bounds {s : List Char} {i j pending : Nat}
    (h : skipBlanksFrom i pending s = .ok j) : i ≤ j ∧ j ≤ i + s.length := by
  induction s generalizing i pending with
  | nil =>
      have : i = j := by simpa [skipBlanksFrom] using h
      simp [this]
  | cons c cs ih =>
      simp only [List.length_cons]
      cases pending with
      | succ pending =>
          have := ih (show skipBlanksFrom (i + 1) pending cs = .ok j from h)
          omega
      | zero =>
          rw [skipBlanksFrom] at h
          split at h
          · have := ih h
            omega
          · split at h
            · obtain ⟨stop, -, h⟩ := bind_eq_ok_iff.1 h
              have := ih h
              omega
            · have : i = j := by simpa using h
              omega

/-- A head ends from `low` on and a template literal after it starts from `i` on, both before `stop`. -/
structure HeadWithin (low i stop : Nat) (found : HeadExtent × Option Nat) : Prop where
  low_le : low ≤ found.1.stop
  le_stop : found.1.stop ≤ stop
  backtick : ∀ j, found.2 = some j → i ≤ j ∧ j < stop

theorem HeadWithin.mono {low i i' stop stop' : Nat} {found : HeadExtent × Option Nat}
    (h : HeadWithin low i' stop' found) (hi : i ≤ i') (hstop : stop' ≤ stop) :
    HeadWithin low i stop found where
  low_le := h.low_le
  le_stop := Nat.le_trans h.le_stop hstop
  backtick j hj := by
    have := h.backtick j hj
    omega

theorem readHead_within {s : List Char} {i low pending : Nat} {head : HeadExtent}
    {found : HeadExtent × Option Nat} (h : readHead i head pending s = .ok found)
    (hi : low ≤ i) (hlow : low ≤ head.stop) (hstop : head.stop ≤ i + s.length) :
    HeadWithin low i (i + s.length) found := by
  induction s generalizing i head pending with
  | nil =>
      obtain rfl : (head, none) = found := by simpa [readHead] using h
      exact ⟨hlow, hstop, by simp⟩
  | cons c cs ih =>
      simp only [List.length_cons] at hstop ⊢
      -- reading on from the next character with a head that ends within the text
      have step {head : HeadExtent} {pending : Nat} (hlow : low ≤ head.stop)
          (hstop : head.stop ≤ i + (cs.length + 1))
          (h : readHead (i + 1) head pending cs = .ok found) :
          HeadWithin low i (i + (cs.length + 1)) found :=
        (ih h (by omega) hlow (by omega)).mono (by omega) (by omega)
      have stay (backtick : Option Nat) (hj : ∀ j, backtick = some j → j = i)
          (h : (Except.ok (head, backtick) : Except ScanError _) = .ok found) :
          HeadWithin low i (i + (cs.length + 1)) found := by
        obtain rfl := Except.ok.inj h
        exact ⟨hlow, hstop, fun j e => by have := hj j e; omega⟩
      cases pending with
      | succ pending => exact step hlow hstop h
      | zero =>
          rw [readHead] at h
          split at h
          · exact step hlow hstop h
          split at h
          · obtain ⟨stop, -, h⟩ := bind_eq_ok_iff.1 h
            exact step hlow hstop h
          split_ifs at h
          · exact stay _ (by simp) h
          · obtain ⟨name, hn, h⟩ := bind_eq_ok_iff.1 h
            have hname := skipBlanksFrom_bounds hn
            split at h
            · rename_i length hl
              have := nameLength?_le hl
              simp only [List.length_drop] at this
              exact step (by simp; omega) (by simp; omega) h
            · exact stay _ (by simp) h
          · obtain ⟨stop, hs, h⟩ := bind_eq_ok_iff.1 h
            have hlow := le_of_skip hs
            have hhigh := le_add_length_of_skip hs
            exact step (by simp; omega) (by simp; omega) h
          · exact stay _ (by simp) h

theorem readPieces_bounds {s : List Char} {start i pending : Nat} {p : Pieces}
    (h : readPieces start i pending s = .ok p) : i < p.stop ∧ p.stop ≤ i + s.length := by
  induction hn : s.length using Nat.strongRecOn generalizing s i pending p with
  | _ n ih =>
      cases s with
      | nil => simp [readPieces] at h
      | cons c cs =>
          simp only [List.length_cons] at hn
          cases pending with
          | succ pending =>
              rw [readPieces] at h
              have := ih cs.length (by omega) h rfl
              omega
          | zero =>
              rw [readPieces.eq_def] at h
              split at h
              · simp_all
              · simp_all
              · rename_i hc
                obtain ⟨rfl, rfl⟩ := List.cons.inj hc
                split at h
                · simp at h
                · rename_i cs
                  obtain ⟨q, hq, rfl⟩ := map_eq_ok_iff.1 h
                  simp only [List.length_cons] at hn
                  have := ih cs.length (by omega) hq rfl
                  simp only [Pieces.addText]
                  omega
              · rename_i hc
                obtain ⟨rfl, rfl⟩ := List.cons.inj hc
                split_ifs at h
                · obtain rfl := Except.ok.inj h
                  simp only
                  omega
                · obtain ⟨stop, -, h⟩ := bind_eq_ok_iff.1 h
                  obtain ⟨rest, hr, h⟩ := bind_eq_ok_iff.1 h
                  have := ih cs.length (by omega) hr rfl
                  obtain rfl := Except.ok.inj h
                  simp only
                  omega
                · obtain ⟨q, hq, rfl⟩ := map_eq_ok_iff.1 h
                  have := ih cs.length (by omega) hq rfl
                  simp only [Pieces.addText]
                  omega

theorem readTemplate_bounds {s : List Char} {i : Nat} {template : RawTemplate}
    (h : readTemplate s i = .ok template) (hi : i < s.length) :
    i < template.span.stop ∧ template.span.stop ≤ s.length := by
  obtain ⟨p, hp, h⟩ := bind_eq_ok_iff.1 h
  obtain rfl := Except.ok.inj h
  have := readPieces_bounds hp
  simp only [List.length_drop] at this
  simp only
  omega

theorem readSite?_bounds {s : List Char} {start tagLength : Nat} {site : RawSite}
    (h : readSite? s start tagLength = .ok (some site)) (ht : start + tagLength ≤ s.length) :
    site.span.start = start ∧ start + tagLength ≤ site.span.stop ∧ site.span.stop ≤ s.length := by
  obtain ⟨⟨head, backtick⟩, hfound, h⟩ := bind_eq_ok_iff.1 h
  have hwithin := readHead_within hfound (Nat.le_refl _) (Nat.le_refl _) (by simp)
  have hend : start + tagLength + (s.drop (start + tagLength)).length = s.length := by
    simp only [List.length_drop]
    omega
  rw [hend] at hwithin
  cases backtick with
  | some j =>
      have hbounds := hwithin.backtick j rfl
      obtain ⟨template, htemplate, h⟩ := bind_eq_ok_iff.1 h
      have := readTemplate_bounds htemplate hbounds.2
      obtain rfl := Option.some.inj (Except.ok.inj h)
      simp only [true_and]
      omega
  | none =>
      simp only at h
      split at h
      · obtain rfl := Option.some.inj (Except.ok.inj h)
        exact ⟨rfl, hwithin.low_le, hwithin.le_stop⟩
      · simp at h

theorem startsTag_length {tag s : List Char} {previous : Option Char}
    (h : startsTag tag previous s = true) : tag.length ≤ s.length := by
  simp only [startsTag, Bool.and_eq_true, List.isPrefixOf_iff_prefix] at h
  exact h.1.1.length_le

def Proper (length : Nat) (span : Span) : Prop := span.start < span.stop ∧ span.stop ≤ length

/-- Sites from an offset on hold characters of a text, stand in order and do not overlap. -/
structure Apart (length i : Nat) (sites : List RawSite) : Prop where
  proper : ∀ site ∈ sites, i ≤ site.span.start ∧ Proper length site.span
  ordered : sites.Pairwise fun a b => a.span.stop ≤ b.span.start

structure Ordered (width length i : Nat) (sites : List RawSite) : Prop where
  within : ∀ site ∈ sites,
    i ≤ site.span.start ∧ site.span.start + width ≤ site.span.stop ∧ site.span.stop ≤ length
  ordered : sites.Pairwise fun a b => a.span.stop ≤ b.span.start

theorem Ordered.mono {width length i i' : Nat} {sites : List RawSite}
    (h : Ordered width length i' sites) (hi : i ≤ i') : Ordered width length i sites where
  within site hm := ⟨Nat.le_trans hi (h.within site hm).1, (h.within site hm).2⟩
  ordered := h.ordered

theorem Ordered.cons {width length i : Nat} {site : RawSite} {sites : List RawSite}
    (h : Ordered width length site.span.stop sites) (hi : i ≤ site.span.start)
    (hwidth : site.span.start + width ≤ site.span.stop) (hstop : site.span.stop ≤ length) :
    Ordered width length i (site :: sites) where
  within := by
    refine List.forall_mem_cons.2 ⟨⟨hi, hwidth, hstop⟩, fun other hm => ?_⟩
    obtain ⟨hlow, hother⟩ := h.within other hm
    exact ⟨by omega, hother⟩
  ordered := List.pairwise_cons.2 ⟨fun other hm => (h.within other hm).1, h.ordered⟩

theorem sitesFrom_ordered {source tag s : List Char} {i pending : Nat} {previous : Option Char}
    {sites : List RawSite} (h : sitesFrom source tag i previous pending s = .ok sites)
    (hs : i + s.length = source.length) :
    Ordered tag.length source.length (i + pending) sites := by
  induction s generalizing i previous pending sites with
  | nil =>
      obtain rfl : [] = sites := by simpa [sitesFrom] using h
      exact ⟨by simp, .nil⟩
  | cons c cs ih =>
      simp only [List.length_cons] at hs
      -- reading goes on from the next character
      have later {pending' : Nat} {sites : List RawSite}
          (h : sitesFrom source tag (i + 1) (some c) pending' cs = .ok sites) :
          Ordered tag.length source.length (i + 1 + pending') sites := ih h (by omega)
      cases pending with
      | succ pending => exact (later h).mono (by omega)
      | zero =>
          rw [sitesFrom] at h
          split at h
          · obtain ⟨stop, -, h⟩ := bind_eq_ok_iff.1 h
            exact (later h).mono (by omega)
          split at h
          · rename_i hstart
            have hlen := startsTag_length hstart
            simp only [List.length_cons] at hlen
            obtain ⟨found, hsite, h⟩ := bind_eq_ok_iff.1 h
            cases found with
            | none =>
                dsimp only at h
                split_ifs at h
                exact (later h).mono (by omega)
            | some site =>
                obtain ⟨hsi, hlow, hhigh⟩ := readSite?_bounds hsite (by omega)
                obtain ⟨rest, hr, h⟩ := bind_eq_ok_iff.1 h
                obtain rfl := Except.ok.inj h
                exact ((later hr).mono (by omega)).cons (by omega) (by omega) hhigh
          · exact (later h).mono (by omega)

theorem findSites_ordered {source tag : List Char} {sites : List RawSite}
    (h : findSites source tag = .ok sites) : Ordered tag.length source.length 0 sites :=
  sitesFrom_ordered h (Nat.zero_add _)

theorem findSites_apart {source tag : List Char} {sites : List RawSite}
    (h : findSites source tag = .ok sites) (htag : tag ≠ []) : Apart source.length 0 sites where
  proper site hm := by
    have := List.length_pos_iff.2 htag
    obtain ⟨hlow, hwidth, hstop⟩ := (findSites_ordered h).within site hm
    exact ⟨hlow, by omega, hstop⟩
  ordered := (findSites_ordered h).ordered

end CssExtract.Script
