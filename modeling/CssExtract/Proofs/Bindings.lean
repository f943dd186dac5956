import CssExtract.Proofs.Evaluation
import CssExtract.Proofs.Stages
import Mathlib.Data.Option.Basic

namespace CssExtract.Text

def blankTable : Intervals :=
  [(9, 13), (28, 32), (0x85, 0x85), (0xA0, 0xA0), (0x1680, 0x1680), (0x2000, 0x200A),
    (0x2028, 0x2029), (0x202F, 0x202F), (0x205F, 0x205F), (0x3000, 0x3000)]

theorem isBlank_iff {c : Char} : isBlank c = true ↔ ∃ i ∈ blankTable, i.1 ≤ c.toNat ∧ c.toNat ≤ i.2 := by
  simp [isBlank, blankTable]
  omega

theorem exists_digitTable_of_isDigit {c : Char} (h : isDigit c = true) :
    ∃ i ∈ digitTable, i.1 ≤ c.toNat ∧ c.toNat ≤ i.2 := by
  simp only [isDigit, digitValue?] at h
  split_ifs at h with hascii
  · refine ⟨(48, 57), by simp [digitTable], ?_⟩
    simp only [Bool.and_eq_true, decide_eq_true_eq] at hascii
    exact hascii
  · simp at h
  · rw [Option.isSome_map] at h
    obtain ⟨i, hfind⟩ := Option.isSome_iff_exists.1 h
    have hin := List.find?_some hfind
    exact ⟨i, List.mem_of_find?_eq_some hfind, by simpa using hin⟩

theorem isBlank_of_isDigit {c : Char} (h : isDigit c = true) : isBlank c = false := by
  have hapart : ∀ i ∈ digitTable, ∀ b ∈ blankTable, i.2 < b.1 ∨ b.2 < i.1 := by decide
  obtain ⟨i, hi, hlow, hhigh⟩ := exists_digitTable_of_isDigit h
  rw [Bool.eq_false_iff]
  intro hblank
  obtain ⟨b, hb, hlow', hhigh'⟩ := isBlank_iff.1 hblank
  have := hapart i hi b hb
  omega

theorem isNameStart_eq (c : Char) : isNameStart c =
    (decide (c.val ≥ 65 ∧ c.val ≤ 90) || decide (c.val ≥ 97) && decide (c.val ≤ 122) ||
      decide (c = '_') || decide (c = '$')) := rfl

theorem isNameStart_of_isDigit {c : Char} (h : isDigit c = true) : isNameStart c = false := by
  have hapart : ∀ i ∈ digitTable, 48 ≤ i.1 ∧ i.2 ≤ 57 ∨ 123 ≤ i.1 := by decide
  obtain ⟨i, hi, hlow, hhigh⟩ := exists_digitTable_of_isDigit h
  have := hapart i hi
  rw [Bool.eq_false_iff]
  intro hstart
  simp only [isNameStart_eq, Bool.or_eq_true, decide_eq_true_eq, Bool.and_eq_true, ge_iff_le,
    UInt32.le_iff_toNat_le] at hstart
  rcases hstart with ((hupper | hlower) | rfl) | rfl
  · simp at hupper
    omega
  · simp at hlower
    omega
  · simp at hlow hhigh
    omega
  · simp at hlow hhigh
    omega

theorem trim_cons {c : Char} (h : isBlank c = false) (s : List Char) : ∃ rest, trim (c :: s) = c :: rest := by
  rw [trim, trimStart_eq_self h, trimEnd, List.reverse_cons, List.dropWhile_append]
  split_ifs with hall
  · exact ⟨[], by simp [h]⟩
  · exact ⟨(s.reverse.dropWhile isBlank).reverse, by simp⟩

def StartsLiteral (s : List Char) : Prop :=
  ∃ c rest, s = c :: rest ∧ isBlank c = false ∧ isNameStart c = false

theorem StartsLiteral.nameLength? {s : List Char} {part : Char → Bool} (h : StartsLiteral s) :
    nameLength? part (trim s) = none := by
  obtain ⟨c, rest, rfl, hblank, hstart⟩ := h
  obtain ⟨rest', htrim⟩ := trim_cons hblank rest
  simp [htrim, Text.nameLength?, hstart]

end CssExtract.Text

namespace CssExtract.Script

open Text

theorem exists_cons_of_digitsLength {s : List Char} (h : digitsLength s ≠ 0) :
    ∃ c rest, s = c :: rest ∧ isDigit c = true := by
  cases s with
  | nil => simp [digitsLength] at h
  | cons c rest =>
      refine ⟨c, rest, rfl, ?_⟩
      cases hc : isDigit c with
      | true => rfl
      | false => simp [digitsLength, hc] at h

theorem startsLiteral_of_numberLength? {s : List Char} {n : Nat} (h : numberLength? s = some n) :
    StartsLiteral s ∧ 0 < n := by
  simp only [numberLength?] at h
  by_cases hwhole : digitsLength s = 0
  · -- without digits in front there has to be a point
    simp only [hwhole, List.drop_zero] at h
    split at h
    · rename_i fraction
      split_ifs at h
      obtain rfl := Option.some.inj h
      exact ⟨⟨'.', fraction, rfl, by decide, by decide⟩, by omega⟩
    · simp at h
  · obtain ⟨c, rest, rfl, hc⟩ := exists_cons_of_digitsLength hwhole
    refine ⟨⟨c, rest, rfl, isBlank_of_isDigit hc, isNameStart_of_isDigit hc⟩, ?_⟩
    split_ifs at h
    obtain rfl := Option.some.inj h
    split <;> omega

theorem startsLiteral_of_literalLength? {s : List Char} {n : Nat} (h : literalLength? s = some n) :
    StartsLiteral (s.take n) := by
  have htake {s : List Char} {n : Nat} (h : StartsLiteral s) (hn : 0 < n) : StartsLiteral (s.take n) := by
    obtain ⟨c, rest, rfl, hblank, hstart⟩ := h
    obtain ⟨k, rfl⟩ := Nat.exists_eq_add_of_lt hn
    exact ⟨c, rest.take _, by rw [Nat.zero_add, List.take_succ_cons], hblank, hstart⟩
  rcases Option.or_eq_some_iff.1 h with hnumber | ⟨-, hstring⟩
  · cases s with
    | nil => simp [signedNumberLength?, numberLength?, digitsLength] at hnumber
    | cons c rest =>
        by_cases hc : c = '-'
        · subst hc
          obtain ⟨k, -, rfl⟩ := Option.map_eq_some_iff.1 hnumber
          exact htake ⟨'-', rest, rfl, by decide, by decide⟩ (by omega)
        · obtain ⟨hs, hn⟩ := startsLiteral_of_numberLength? (s := c :: rest) (n := n) (by
            simpa [signedNumberLength?, hc] using hnumber)
          exact htake hs hn
  · cases s with
    | nil => simp [stringLength?] at hstring
    | cons c rest =>
        simp only [stringLength?] at hstring
        split_ifs at hstring with hquote
        obtain ⟨k, -, rfl⟩ := Option.map_eq_some_iff.1 hstring
        refine htake ⟨c, rest, rfl, ?_⟩ (by omega)
        simp only [Bool.or_eq_true, decide_eq_true_eq] at hquote
        rcases hquote with rfl | rfl <;> decide

theorem exists_recognised {α : Type} {recognise : Option Char → List Char → Option (α × Nat)}
    {previous : Option Char} {pending : Nat} {s : List Char} {a : α}
    (h : a ∈ matchesFrom recognise previous pending s) :
    ∃ previous' s' n, recognise previous' s' = some (a, n) := by
  induction s generalizing previous pending with
  | nil => simp [matchesFrom] at h
  | cons c s ih =>
      cases pending with
      | succ pending => exact ih h
      | zero =>
          rw [matchesFrom] at h
          split at h
          · rename_i hrecognise
            rcases List.mem_cons.1 h with rfl | h
            · exact ⟨_, _, _, hrecognise⟩
            · exact ih h
          · exact ih h

theorem startsLiteral_of_constant? {previous : Option Char} {s name literal : List Char} {n : Nat}
    (h : constant? previous s = some ((name, literal), n)) : StartsLiteral literal := by
  simp only [constant?, bind, Option.bind_eq_some_iff] at h
  obtain ⟨-, -, _, -, s₁, -, length, -, s₂, -, width, hwidth, rest, -, hmatched⟩ := h
  obtain ⟨⟨-, rfl⟩, -⟩ : (_ ∧ _) ∧ _ := by simpa [matched] using hmatched
  exact startsLiteral_of_literalLength? hwidth

theorem startsLiteral_of_parseConstants {s : List Char} {name literal : String}
    (h : (parseConstants s).get? name = some literal) : StartsLiteral literal.toList := by
  obtain ⟨_, _, _, hconstant⟩ :=
    exists_recognised (mem_matches_of_mem_parseConstants (Styled.mem_of_get? h))
  exact startsLiteral_of_constant? hconstant

end CssExtract.Script

namespace CssExtract.Styled

open Eval Evaluator
open Script Text

def lastBound (items : List ProcessedSite) (name : String) : Option ProcessedSite :=
  items.reverse.find? (·.site.binding = some name)

theorem lastBound_cons (item : ProcessedSite) (items : List ProcessedSite) (name : String) :
    lastBound (item :: items) name =
      (lastBound items name).or (if item.site.binding = some name then some item else none) := by
  simp only [lastBound, List.reverse_cons, List.find?_append]
  split_ifs with h <;> simp [h]

def bindSite (e : Evaluator) (item : ProcessedSite) : Evaluator :=
  match item.site.binding with
  | some name => e.bind name item.processor.metadata
  | none => e

theorem get?_bindSite (e : Evaluator) (item : ProcessedSite) (name : String) :
    (bindSite e item).bindings.get? name =
      if item.site.binding = some name then some item.processor.metadata else e.bindings.get? name := by
  simp only [bindSite]
  split
  · rename_i bound hbound
    by_cases hname : name = bound
    · simp [hname, hbound, Evaluator.bind]
    · simp [hbound, Evaluator.bind, Entries.get?_set_of_ne hname, Ne.symm hname]
  · rename_i hbound
    simp [hbound]

theorem get?_foldl_bindSite (e : Evaluator) (items : List ProcessedSite) (name : String) :
    (items.foldl bindSite e).bindings.get? name =
      ((lastBound items name).map (·.processor.metadata)).or (e.bindings.get? name) := by
  induction items generalizing e with
  | nil => simp [lastBound]
  | cons item items ih =>
      rw [List.foldl_cons, ih, get?_bindSite, lastBound_cons]
      cases lastBound items name with
      | some last => simp
      | none => split_ifs <;> simp

theorem known_foldl_bindSite {e : Evaluator} (h : e.known = []) (items : List ProcessedSite) :
    (items.foldl bindSite e).known = [] := by
  induction items generalizing e with
  | nil => exact h
  | cons item items ih =>
      refine ih ?_
      simp only [bindSite]
      split
      · simp [Evaluator.bind, h, Entries.erase]
      · exact h

theorem get?_map_raw (constants : Entries String) (name : String) :
    Entries.get? name (constants.map fun (name, literal) => (name, Node.raw literal)) =
      (constants.get? name).map .raw := by
  induction constants with
  | nil => rfl
  | cons constant constants ih =>
      obtain ⟨k, literal⟩ := constant
      simp only [List.map_cons, Entries.get?]
      split_ifs
      · rfl
      · exact ih

theorem get?_moduleBindings (source : List Char) (items : List ProcessedSite) (name : String) :
    (moduleBindings source items).bindings.get? name =
      ((lastBound items name).map (·.processor.metadata)).or
        (((parseConstants source).get? name).map .raw) := by
  rw [← get?_map_raw]
  exact get?_foldl_bindSite _ items name

theorem known_moduleBindings (source : List Char) (items : List ProcessedSite) :
    (moduleBindings source items).known = [] := known_foldl_bindSite rfl items

namespace Module

variable (m : Module)

/-- The last constructed site that is assigned to a name. -/
def last (name : String) : Option ProcessedSite := lastBound m.constructed name

def component (name : String) : Option Processor := (m.last name).map (·.processor)

theorem bound_moduleBindings :
    Bound m.component (moduleBindings m.source m.constructed).bindings := by
  constructor
  · intro name p hcomp
    obtain ⟨item, hlast, rfl⟩ := Option.map_eq_some_iff.1 hcomp
    rw [get?_moduleBindings, show lastBound m.constructed name = some item from hlast]
    rfl
  · intro name node hcomp hget
    have hlast : lastBound m.constructed name = none := Option.map_eq_none_iff.1 hcomp
    rw [get?_moduleBindings, hlast, Option.map_none, Option.none_or] at hget
    obtain ⟨literal, hliteral, rfl⟩ := Option.map_eq_some_iff.1 hget
    exact ⟨literal, rfl, (startsLiteral_of_parseConstants hliteral).nameLength?⟩

end Module

end CssExtract.Styled
