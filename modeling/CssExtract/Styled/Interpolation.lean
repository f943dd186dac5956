import CssExtract.Files.Tree
import CssExtract.Glob.Match
import CssExtract.Json.Write
import CssExtract.Script.Print
import CssExtract.Styled.Diagnostic

namespace CssExtract.Styled

open Eval
open Script (Node)

inductive StyledCause
  | invalidUsage (message : String)
  | evaluation (shown : String)
  | interpolation (shown source : String)
  | cyclicExtends (component selector : String)
deriving DecidableEq, Repr

structure StyledError where
  cause : StyledCause
  loc : Option Location
deriving DecidableEq, Repr

def conversion (source : String) : String := "String(" ++ source ++ ")"

def StyledError.fix (e : StyledError) : Option String :=
  match e.cause with
  | .interpolation _ source => some (conversion source)
  | _ => none

def StyledError.message (e : StyledError) : String :=
  match e.cause with
  | .invalidUsage message => message
  | .evaluation shown =>
    "An error occurred when evaluating the expression: " ++ shown ++
      ". Make sure you are not using a browser or Node specific API."
  | .interpolation shown source =>
    "The expression evaluated to '" ++ shown ++ "', which is probably a mistake. " ++
      "If you want it to be inserted into CSS, explicitly cast or transform the value " ++
      "to a string, e.g. - '" ++ conversion source ++ "'."
  | .cyclicExtends component selector => component ++ " extends itself through " ++ selector

def StyledError.code (e : StyledError) : String :=
  match e.cause with
  | .invalidUsage _ => "invalid-usage"
  | .evaluation _ => "evaluation-error"
  | .interpolation .. => "invalid-interpolation"
  | .cyclicExtends .. => "cyclic-extends-error"

def StyledError.diagnostic (e : StyledError) (place : Option Location) : Diagnostic :=
  ⟨e.code, .error, e.message, e.loc.or place, e.fix⟩

inductive Failure
  | styled (error : StyledError)
  | outOfRange
  | notCode
  | invalidName
  | access (fault : Tree.Fault)
  | matching (fault : Glob.Fault)
  | alreadyBuilt (component : String)
  | alreadyReplaced (component : String)

def Failure.misuse? : Failure → Option String
  | .alreadyBuilt component => some (component ++ " is already built")
  | .alreadyReplaced component => some (component ++ " is already replaced")
  | _ => none

def finite? : Number → Except Failure Bool
  | .int n => if n.natAbs < Number.floatBound then .ok true else .error .outOfRange
  | .float x => .ok (Number.isFinite x)

def serializableScalar : Scalar → Except Failure Bool
  | .null | .bool _ | .string _ => .ok true
  | .number n => finite? n
  | .undefined | .function | .error _ | .failure _ => .ok false

mutual

/-- Nulls, booleans, strings, finite numbers, and lists and objects of such values. -/
def serializable : Value → Except Failure Bool
  | .scalar s => serializableScalar s
  | .array items => allSerializable items
  | .object entries => allEntriesSerializable entries
  | .styled .. | .carrier _ | .cycle _ => .ok false

def allSerializable : List Value → Except Failure Bool
  | [] => .ok true
  | v :: vs => do if ← serializable v then allSerializable vs else .ok false

def allEntriesSerializable : List (String × Value) → Except Failure Bool
  | [] => .ok true
  | (_, v) :: es => do if ← serializable v then allEntriesSerializable es else .ok false

end

def checkValue (value : Value) (node : Node) (loc : Option Location) : Except Failure Unit := do
  match value with
  | .scalar .function => return ()
  | _ =>
    if ← serializable value then return ()
    match value with
    | .scalar (.error message) | .scalar (.failure message) =>
      throw (.styled ⟨.evaluation message, loc⟩)
    | _ =>
      match node.code? with
      | none => throw .notCode
      | some source => throw (.styled ⟨.interpolation value.toText source, loc⟩)

def valueDiagnostic? (value : Value) (node : Node) (loc : Option Location) :
    Except Failure (Option Diagnostic) :=
  match checkValue value node loc with
  | .ok () => .ok none
  | .error (.styled e) => .ok (some (e.diagnostic none))
  | .error failure => .error failure

def kebab (name : String) : String :=
  String.ofList (name.toList.flatMap fun c => if c.isUpper then ['-', c.toLower] else [c])

mutual

/-- Declarations for the entries of an object; an object in it makes a nested rule. -/
def objectToCss : List (String × Value) → String
  | entries => " ".intercalate (declarations entries)

def declarations : List (String × Value) → List String
  | [] => []
  | (key, value) :: rest => declaration key value :: declarations rest

def declaration (key : String) : Value → String
  | .object entries => key ++ " \x7b " ++ objectToCss entries ++ " \x7d"
  | value => kebab key ++ ": " ++ value.toText ++ ";"

end

def cssOf : Value → String
  | .object entries => objectToCss entries
  | value => value.toText

end CssExtract.Styled
