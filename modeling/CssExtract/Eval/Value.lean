import CssExtract.Entries
import CssExtract.Number.Render

namespace CssExtract.Eval

inductive Scalar
  | null
  | undefined
  | bool (b : Bool)
  | number (n : Number)
  | string (s : String)
  | function
  | error (message : String)
  | failure (message : String)
deriving Inhabited

inductive Value
  | scalar (s : Scalar)
  | array (items : List Value)
  | object (entries : List (String × Value))
  | styled (className : String) (base : Value)
  /-- Something else that has the metadata of a styled component as a property. -/
  | carrier (metadata : Value)
  /-- The same value as the container so many levels up; the direct container is level 1. -/
  | cycle (levels : Nat)

namespace Value

instance : Inhabited Value := ⟨.scalar .undefined⟩

@[match_pattern] abbrev null : Value := .scalar .null
@[match_pattern] abbrev undefined : Value := .scalar .undefined
@[match_pattern] abbrev bool (b : Bool) : Value := .scalar (.bool b)
@[match_pattern] abbrev number (n : Number) : Value := .scalar (.number n)
@[match_pattern] abbrev string (s : String) : Value := .scalar (.string s)
@[match_pattern] abbrev function : Value := .scalar .function

end Value

def metadataKey : String := "__wyw_meta"

def Value.metadata? : Value → Option (String × Value)
  | .styled className base => some (className, base)
  | .carrier (.styled className base) => some (className, base)
  | .object entries =>
    match Entries.get? metadataKey entries with
    | some (.object metadata) =>
      match Entries.get? "className" metadata with
      | some (.scalar (.string className)) =>
        some (className, (Entries.get? "extends" metadata).getD (.scalar .null))
      | _ => none
    | _ => none
  | _ => none

def Value.truthy : Value → Bool
  | .scalar .null | .scalar .undefined => false
  | .scalar (.bool b) => b
  | .scalar (.number (.int n)) => n ≠ 0
  | .scalar (.number (.float x)) => !(x == 0)
  | .scalar (.string s) => !s.isEmpty
  | .array items => !items.isEmpty
  | .object entries => !entries.isEmpty
  | _ => true

end CssExtract.Eval
