import CssExtract.Text.Position
import Mathlib.Data.List.DropRight
import Mathlib.Data.Prod.Lex
import Mathlib.Order.Monotone.Basic
import Mathlib.Tactic.SplitIfs

namespace CssExtract

/-- Positions are passed line by line, and in a line column by column. -/
def Position.key (pos : Position) : Nat ×ₗ Nat := toLex (pos.line, pos.column)

namespace Text

variable {s : List Char} {offset : Nat}

def lastLine (s : List Char) : List Char := s.rtakeWhile (· ≠ '\n')

theorem lastLine_concat (s : List Char) (c : Char) :
    lastLine (s ++ [c]) = if c = '\n' then [] else lastLine s ++ [c] := by
  simp [lastLine, List.rtakeWhile_concat, ite_not]

theorem position_succ (h : offset < s.length) :
    position s (offset + 1) = if s[offset] = '\n' then ⟨(position s offset).line + 1, 0⟩
      else ⟨(position s offset).line, (position s offset).column + 1⟩ := by
  rw [position_eq_advance, position_eq_advance, ← advance_advance, List.drop_eq_getElem_cons h]
  rfl

theorem position_eq (h : offset ≤ s.length) :
    position s offset = ⟨1 + (s.take offset).count '\n', (lastLine (s.take offset)).length⟩ := by
  induction offset with
  | zero => rw [position_eq_advance]; rfl
  | succ offset ih =>
    have hlt : offset < s.length := h
    rw [position_succ hlt, ih (Nat.le_of_lt hlt), List.take_succ_eq_append_getElem hlt,
      List.count_append, lastLine_concat]
    split_ifs with hc <;> simp [hc, Nat.add_assoc]

theorem strictMono_position (s : List Char) : StrictMono fun offset => (position s offset).key := by
  intro m n h
  obtain ⟨k, rfl⟩ := Nat.exists_eq_add_of_lt h
  have hsteps : position s (m + k + 1) = advance (position s m) (k + 1) (s.drop m) := by
    rw [position_eq_advance, position_eq_advance, advance_advance, Nat.add_assoc]
  simp only [Position.key, hsteps, Prod.Lex.toLex_lt_toLex]
  obtain hline | hsame := advance_cases (position s m) (k + 1) (s.drop m)
  · exact .inl hline
  · rw [hsame]
    exact .inr ⟨rfl, Nat.lt_add_of_pos_right (Nat.succ_pos k)⟩

theorem location_injective (s : List Char) (filename : Option String) :
    Function.Injective (location s filename) := by
  rintro ⟨start, stop⟩ ⟨start', stop'⟩ h
  simp only [location, Location.mk.injEq, Option.some.injEq, and_true, position_inj] at h
  rw [h.1, h.2]

theorem position_exact (s : List Char) :
    (∀ offset ≤ s.length, position s offset =
        ⟨1 + (s.take offset).count '\n', (lastLine (s.take offset)).length⟩) ∧
      StrictMono (fun offset => (position s offset).key) ∧ Function.Injective (position s) ∧
      ∀ filename, Function.Injective (location s filename) :=
  ⟨fun _ => position_eq, strictMono_position s, fun _ _ => position_inj.1, location_injective s⟩

def stanza : List Char := "ab\n\nc\n".toList

theorem stanza_positions :
    2 ≤ stanza.length ∧ position stanza 2 = ⟨1, 2⟩ ∧ 3 ≤ stanza.length ∧ position stanza 3 = ⟨2, 0⟩ ∧
      6 ≤ stanza.length ∧ position stanza 6 = ⟨4, 0⟩ := by
  obtain ⟨hexact, -⟩ := position_exact stanza
  have htwo : 2 ≤ stanza.length := by decide
  have hthree : 3 ≤ stanza.length := by decide
  have hsix : 6 ≤ stanza.length := by decide
  exact ⟨htwo, (hexact 2 htwo).trans (by decide), hthree, (hexact 3 hthree).trans (by decide), hsix,
    (hexact 6 hsix).trans (by decide)⟩

end Text

end CssExtract
