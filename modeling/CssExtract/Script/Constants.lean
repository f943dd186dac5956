import CssExtract.Entries
import CssExtract.Script.Imports
import CssExtract.Script.Literal

namespace CssExtract.Script

open Text

def isInlineBlank (c : Char) : Bool := c = ' ' || c = '\t'

def lineEnd? : List Char → Option (List Char)
  | [] => some []
  | c :: s => if c = '\n' then some (c :: s) else none

def statementEnd? (s : List Char) : Option (List Char) :=
  ((after? [';'] s).bind fun s => lineEnd? (s.dropWhile isInlineBlank)).or
    (lineEnd? (s.dropWhile isInlineBlank))

def literalLength? (s : List Char) : Option Nat := (signedNumberLength? s).or (stringLength? s)

/-- The name and the literal of a constant declared at the start of a line. -/
def constant? (previous : Option Char) (s : List Char) : Option ((List Char × List Char) × Nat) := do
  guard (previous.all (· = '\n'))
  let line := s.dropWhile isInlineBlank
  let declaration := ((after? "export".toList line).bind someBlanks?).getD line
  let s₁ ← someBlanks? (← declarator? declaration)
  let length ← nameLength? isNamePart s₁
  let s₂ ← after? ['='] (trimStart (s₁.drop length))
  let s₃ := trimStart s₂
  let width ← literalLength? s₃
  let rest ← (pastBlanks (s₃.drop width)).findSome? statementEnd?
  some (matched s ((s₁.take length, s₃.take width), rest))

def parseConstants (s : List Char) : Entries String :=
  (allMatches constant? s).foldl
    (fun constants (name, literal) => constants.set (String.ofList name) (String.ofList literal)) []

theorem mem_matches_of_mem_parseConstants {s : List Char} {name literal : String}
    (h : (name, literal) ∈ parseConstants s) :
    (name.toList, literal.toList) ∈ allMatches constant? s := by
  have hfold : ∀ (l : List (List Char × List Char)) (constants : Entries String),
      (name, literal) ∈ l.foldl (fun constants (name, literal) =>
        constants.set (String.ofList name) (String.ofList literal)) constants →
      (name, literal) ∈ constants ∨ (name.toList, literal.toList) ∈ l := by
    intro l
    induction l with
    | nil => exact fun constants h => .inl h
    | cons constant l ih =>
      intro constants h
      rcases ih _ h with h | h
      · refine (Entries.mem_set h).symm.imp_right fun h => ?_
        obtain ⟨hname, hliteral⟩ := Prod.mk.inj h
        simp [hname, hliteral]
      · exact .inr (List.mem_cons_of_mem _ h)
  exact (hfold _ [] h).resolve_left (by simp)

theorem nodup_keys_parseConstants (s : List Char) : ((parseConstants s).map (·.1)).Nodup := by
  have hfold : ∀ (l : List (List Char × List Char)) (constants : Entries String),
      (constants.map (·.1)).Nodup →
      ((l.foldl (fun constants (name, literal) =>
        constants.set (String.ofList name) (String.ofList literal)) constants).map (·.1)).Nodup := by
    intro l
    induction l with
    | nil => exact fun constants h => h
    | cons constant l ih => exact fun constants h => ih _ (Entries.nodup_keys_set h)
  exact hfold _ [] .nil

/-- What follows a type annotation, if one starts here. -/
def pastAnnotation? : List Char → Option (List Char)
  | ':' :: s =>
    let rest := s.dropWhile fun c => c ≠ '=' && c ≠ ';'
    if rest.length = s.length then none else some rest
  | s => some s

def declared? (s : List Char) : Option (List Char) := do
  let s₁ ← someBlanks? (← declarator? s)
  let length ← nameLength? isNamePart s₁
  let value ← after? ['='] (← pastAnnotation? (trimStart (s₁.drop length)))
  guard (value.all isBlank)
  some (s₁.take length)

def bindingBefore? : List Char → Option (List Char)
  | [] => none
  | c :: s => (declared? (c :: s)).or (bindingBefore? s)

end CssExtract.Script
