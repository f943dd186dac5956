import CssExtract.Proofs.Recoding
import CssExtract.Proofs.TemplatePieces

namespace CssExtract

def Span.shift (p : Nat) (span : Span) : Span := ⟨span.start + p, span.stop + p⟩

namespace Script

open Text

variable {α β : Type} {p : Nat} {s tag : List Char}

def ScanError.shift (p : Nat) (e : ScanError) : ScanError := { e with offset := e.offset + p }

def Frame.shift (p : Nat) : Frame → Frame
  | .blockComment start => .blockComment (start + p)
  | frame => frame

def Move.shift (p : Nat) (move : Move) : Move := { move with frames := move.frames.map (.shift p) }

def HeadExtent.shift (p : Nat) (head : HeadExtent) : HeadExtent := { head with stop := head.stop + p }

def RawHole.shift (p : Nat) (hole : RawHole) : RawHole := { hole with span := hole.span.shift p }

def RawTemplate.shift (p : Nat) (template : RawTemplate) : RawTemplate :=
  { template with span := template.span.shift p, holes := template.holes.map (.shift p) }

def Pieces.shift (p : Nat) (pieces : Pieces) : Pieces :=
  { pieces with holes := pieces.holes.map (.shift p), stop := pieces.stop + p }

def RawSite.shift (p : Nat) (site : RawSite) : RawSite :=
  { site with span := site.span.shift p, template := site.template.map (.shift p) }

def shifted (p : Nat) (move : α → α) : Except ScanError α → Except ScanError α
  | .ok a => .ok (move a)
  | .error e => .error (e.shift p)

theorem shifted_bind {move : α → α} {move' : β → β} {x : Except ScanError α}
    {f g : α → Except ScanError β} (h : ∀ a, x = .ok a → g (move a) = shifted p move' (f a)) :
    shifted p move x >>= g = shifted p move' (x >>= f) := by
  cases x with
  | ok a => exact h a rfl
  | error e => rfl

theorem atEnd_shift (p i : Nat) (frames : List Frame) :
    atEnd (i + p) (frames.map (.shift p)) = shifted p (· + p) (atEnd i frames) := by
  induction frames with
  | nil => rfl
  | cons frame frames ih =>
      cases frame with
      | lineComment => exact ih
      | _ => rfl

theorem opens?_add (p i : Nat) (c : Char) (next : Option Char) :
    opens? (i + p) c next = (opens? i c next).map fun (width, frame) => (width, frame.shift p) := by
  simp only [opens?]
  split_ifs <;> rfl

theorem Frame.move_add (p i : Nat) (c : Char) (next : Option Char) (frame : Frame) :
    (frame.shift p).move (i + p) c next = (frame.move i c next).map (.shift p) := by
  cases frame with
  | group closer =>
      simp only [shift, move, opens?_add]
      cases opens? i c next with
      | some found => rfl
      | none =>
          cases closerOf? c with
          | some inner => rfl
          | none =>
              simp only [Option.map_none]
              split_ifs <;> rfl
  | _ =>
      simp only [shift, move]
      split_ifs <;> rfl

theorem skip_shift (p i : Nat) (frames : List Frame) (s : List Char) :
    skip (i + p) (frames.map (.shift p)) s = shifted p (· + p) (skip i frames s) := by
  induction hn : s.length using Nat.strongRecOn generalizing i frames s with
  | _ n ih =>
    cases frames with
    | nil => simp [skip, shifted]
    | cons frame frames =>
        cases s with
        | nil => rw [skip_nil, skip_nil, atEnd_shift]
        | cons c s =>
            rw [List.map_cons, skip_cons, skip_cons, Frame.move_add]
            cases frame.move i c s.head? with
            | error cause => rfl
            | ok move =>
                simp only [Except.map, Move.shift, ← List.map_append]
                simp only [List.length_cons] at hn
                split_ifs
                · rw [Nat.add_right_comm]
                  exact ih _ (by simp; omega) _ _ _ rfl
                · rw [Nat.add_right_comm]
                  exact ih _ (by omega) _ _ _ rfl

theorem skip_group_shift (p i : Nat) (closer : Char) (s : List Char) :
    skip (i + p) [.group closer] s = shifted p (· + p) (skip i [.group closer] s) :=
  skip_shift p i [.group closer] s

theorem comment?_shift (p i : Nat) (c : Char) (s : List Char) :
    comment? (i + p) c s = (comment? i c s).map (shifted p (· + p)) := by
  simp only [comment?, opens?_add]
  cases opens? i c s.head? with
  | none => rfl
  | some found =>
      obtain ⟨width, frame⟩ := found
      cases frame with
      | lineComment =>
          simp only [Option.map_some, Frame.shift, Option.some.injEq]
          rw [Nat.add_right_comm]
          exact skip_shift p (i + 2) [.lineComment] s.tail
      | blockComment start =>
          simp only [Option.map_some, Frame.shift, Option.some.injEq]
          rw [Nat.add_right_comm]
          exact skip_shift p (i + 2) [.blockComment start] s.tail
      | _ => rfl

theorem skipBlanksFrom_shift (p i pending : Nat) (s : List Char) :
    skipBlanksFrom (i + p) pending s = shifted p (· + p) (skipBlanksFrom i pending s) := by
  induction s generalizing i pending with
  | nil => rfl
  | cons c s ih =>
      cases pending with
      | succ pending =>
          rw [skipBlanksFrom, skipBlanksFrom, Nat.add_right_comm, ih]
      | zero =>
          rw [skipBlanksFrom, skipBlanksFrom, comment?_shift, Nat.add_right_comm]
          split_ifs
          · exact ih _ _
          · cases comment? i c s with
            | none => rfl
            | some stop =>
                refine shifted_bind fun stop hstop => ?_
                rw [ih, show stop + p - (i + 1 + p) = stop - (i + 1) by omega]

theorem readHead_shift (p i : Nat) (head : HeadExtent) (pending : Nat) (s : List Char) :
    readHead (i + p) (head.shift p) pending s =
      shifted p (fun found => (found.1.shift p, found.2.map (· + p))) (readHead i head pending s) := by
  induction s generalizing i head pending with
  | nil => rfl
  | cons c s ih =>
      cases pending with
      | succ pending => rw [readHead, readHead, Nat.add_right_comm, ih]
      | zero =>
          rw [readHead, readHead, comment?_shift, Nat.add_right_comm]
          cases comment? i c s with
          | some stop =>
              simp only [Option.map_some]
              split_ifs
              · exact ih _ _ _
              · refine shifted_bind fun stop hstop => ?_
                rw [ih, show stop + p - (i + 1 + p) = stop - (i + 1) by omega]
          | none =>
              simp only [Option.map_none]
              split_ifs
              · exact ih _ _ _
              · rfl
              · rw [skipBlanksFrom_shift]
                refine shifted_bind fun name _ => ?_
                rw [show name + p - (i + 1 + p) = name - (i + 1) by omega]
                cases nameLength? isAsciiNamePart (s.drop (name - (i + 1))) with
                | none => rfl
                | some length =>
                    simp only
                    rw [show name + p + length - (i + 1 + p) = name + length - (i + 1) by omega, ← ih]
                    simp only [HeadExtent.shift, Nat.add_right_comm]
              · rw [skip_group_shift]
                refine shifted_bind fun stop hstop => ?_
                rw [show stop + p - (i + 1 + p) = stop - (i + 1) by omega, ← ih]
                rfl
              · rfl

theorem addText_shift (text : List Char) (x : Except ScanError Pieces) :
    (shifted p (.shift p) x).map (·.addText text) = shifted p (.shift p) (x.map (·.addText text)) := by
  cases x <;> rfl

theorem readPieces_shift (p start i pending : Nat) (s : List Char) :
    readPieces (start + p) (i + p) pending s = shifted p (.shift p) (readPieces start i pending s) := by
  induction hn : s.length using Nat.strongRecOn generalizing i pending s with
  | _ n ih =>
    cases s with
    | nil => simp [readPieces, shifted, ScanError.shift]
    | cons c s =>
        simp only [List.length_cons] at hn
        cases pending with
        | succ pending =>
            rw [readPieces, readPieces, Nat.add_right_comm]
            exact ih _ (by omega) _ _ _ rfl
        | zero =>
            by_cases hback : c = '\\'
            · subst hback
              cases s with
              | nil => rfl
              | cons d s =>
                  simp only [List.length_cons] at hn
                  rw [readPieces, readPieces]
                  rw [Nat.add_right_comm, ih _ (by omega) _ _ _ rfl, addText_shift]
            · rw [readPieces_cons hback, readPieces_cons hback, Nat.add_right_comm i p 1,
                Nat.add_right_comm i p 2]
              split_ifs
              · rfl
              · rw [skip_group_shift]
                refine shifted_bind fun stop hstop => ?_
                rw [ih _ (by omega) _ _ _ rfl, show stop + p - (i + 1 + p) = stop - (i + 1) by omega]
                refine shifted_bind fun rest _ => ?_
                have hlow := le_of_skip hstop
                simp only [shifted, Pieces.shift, List.map_cons, RawHole.shift, Span.shift]
                rw [show stop + p - 1 - (i + 2 + p) = stop - 1 - (i + 2) by omega,
                  show stop + p - 1 = stop - 1 + p by omega]
              · rw [ih _ (by omega) _ _ _ rfl, addText_shift]

theorem readTemplate_shift (pre s : List Char) (i : Nat) :
    readTemplate (pre ++ s) (i + pre.length) =
      shifted pre.length (.shift pre.length) (readTemplate s i) := by
  have hdrop : (pre ++ s).drop (i + pre.length + 1) = s.drop (i + 1) := by
    rw [Nat.add_right_comm, Nat.add_comm, ← List.drop_drop, List.drop_left]
  rw [readTemplate, readTemplate, hdrop, Nat.add_right_comm, readPieces_shift]
  refine shifted_bind fun pieces _ => rfl

theorem slice_shift (pre s : List Char) (span : Span) :
    slice (pre ++ s) (span.shift pre.length) = slice s span := by
  rw [slice, slice, Span.shift, Nat.add_sub_add_right, Nat.add_comm, ← List.drop_drop, List.drop_left]

theorem readSite?_shift (pre s : List Char) (i length : Nat) :
    readSite? (pre ++ s) (i + pre.length) length =
      shifted pre.length (Option.map (.shift pre.length)) (readSite? s i length) := by
  have hdrop : (pre ++ s).drop (i + pre.length + length) = s.drop (i + length) := by
    rw [Nat.add_right_comm, Nat.add_comm, ← List.drop_drop, List.drop_left]
  have hhead := readHead_shift pre.length (i + length) ⟨0, false, i + length⟩ 0 (s.drop (i + length))
  rw [readSite?, readSite?, hdrop, Nat.add_right_comm]
  simp only [HeadExtent.shift] at hhead
  rw [hhead]
  refine shifted_bind fun found _ => ?_
  obtain ⟨head, backtick⟩ := found
  have hslice := slice_shift pre s ⟨i, head.stop⟩
  simp only [Span.shift] at hslice
  cases backtick with
  | some j =>
      simp only [Option.map_some, hslice]
      rw [readTemplate_shift]
      exact shifted_bind fun template _ => rfl
  | none =>
      simp only [Option.map_none, hslice]
      split_ifs <;> rfl

theorem sitesFrom_shift (pre source tag : List Char) (i : Nat) (previous : Option Char)
    (pending : Nat) (s : List Char) :
    sitesFrom (pre ++ source) tag (i + pre.length) previous pending s =
      shifted pre.length (List.map (.shift pre.length)) (sitesFrom source tag i previous pending s) := by
  induction s generalizing i previous pending with
  | nil => rfl
  | cons c s ih =>
      cases pending with
      | succ pending => rw [sitesFrom, sitesFrom, Nat.add_right_comm, ih]
      | zero =>
          rw [sitesFrom, sitesFrom, opens?_add]
          cases opens? i c s.head? with
          | some found =>
              obtain ⟨width, frame⟩ := found
              simp only [Option.map_some]
              rw [Nat.add_right_comm, Nat.add_right_comm i _ 1]
              have hskip := skip_shift pre.length (i + width) [frame] (s.drop (width - 1))
              rw [List.map_singleton] at hskip
              rw [hskip]
              refine shifted_bind fun stop _ => ?_
              rw [ih, show stop + pre.length - (i + 1 + pre.length) = stop - (i + 1) by omega]
          | none =>
              simp only [Option.map_none]
              rw [readSite?_shift, Nat.add_right_comm]
              split
              · refine shifted_bind fun found _ => ?_
                cases found with
                | none =>
                    dsimp only [Option.map_none]
                    split
                    · rfl
                    · exact ih _ _ _
                | some site =>
                    simp only [Option.map_some, RawSite.shift, Span.shift]
                    rw [ih, show site.span.stop + pre.length - (i + 1 + pre.length) =
                      site.span.stop - (i + 1) by omega]
                    exact shifted_bind fun rest _ => rfl
              · exact ih _ _ _

/-- What is before a text matters no more than a character that no name goes on from. -/
theorem sitesFrom_of_joined {source : List Char} {previous previous' : Option Char}
    (h : joined previous = joined previous') :
    sitesFrom source tag i previous 0 s = sitesFrom source tag i previous' 0 s := by
  cases s with
  | nil => rfl
  | cons c s => rw [sitesFrom, sitesFrom, startsTag_eq, startsTag_eq, h]

theorem sitesFrom_after (pre s tag : List Char) {previous : Option Char}
    (h : joined previous = false) :
    sitesFrom (pre ++ s) tag pre.length previous 0 s =
      shifted pre.length (List.map (.shift pre.length)) (findSites s tag) := by
  have hshift := sitesFrom_shift pre s tag 0 previous 0 s
  rw [Nat.zero_add] at hshift
  rw [hshift, sitesFrom_of_joined (h.trans rfl : joined previous = joined none), findSites]

end Script

end CssExtract
