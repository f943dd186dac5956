import CssExtract.Eval.Value
import CssExtract.Text.Quoted

namespace CssExtract.Json

open Eval Text

def escapeUnits (n : Nat) : List Char :=
  if n < 0x10000 then '\\' :: 'u' :: hex 4 n
  else
    let rest := n - 0x10000
    '\\' :: 'u' :: hex 4 (0xD800 + rest / 0x400) ++ '\\' :: 'u' :: hex 4 (0xDC00 + rest % 0x400)

def escape (c : Char) : List Char :=
  if c = '"' || c = '\\' then ['\\', c]
  else if c = '\n' then ['\\', 'n']
  else if c = '\r' then ['\\', 'r']
  else if c = '\t' then ['\\', 't']
  else if c = '\x08' then ['\\', 'b']
  else if c = '\x0c' then ['\\', 'f']
  else if c.toNat < 32 || 126 < c.toNat then escapeUnits c.toNat
  else [c]

def writeString (s : String) : String := String.ofList ('"' :: s.toList.flatMap escape ++ ['"'])

/-- Scalars without a form of their own are written as strings. -/
def writeScalar : Scalar → String
  | .null => "null"
  | .undefined => writeString "undefined"
  | .bool b => if b then "true" else "false"
  | .number n => n.renderExact
  | .string s => writeString s
  | .function => writeString "function"
  | .error message | .failure message => writeString message

end CssExtract.Json

namespace CssExtract.Eval

open Text

def Scalar.inspect : Scalar → String
  | .null => "None"
  | .undefined => "undefined"
  | .bool b => if b then "True" else "False"
  | .number (.int n) => toString n
  | .number (.float x) => Number.renderFloat x
  | .string s => quoted s
  | .function => "function"
  | .error message => "EvaluatedError(message=" ++ quoted message ++ ", stack='')"
  | .failure message => "Exception(" ++ quoted message ++ ")"

mutual

def Value.inspect : Value → String
  | .scalar s => s.inspect
  | .array items => "[" ++ ", ".intercalate (inspectAll items) ++ "]"
  | .object entries => "\x7b" ++ ", ".intercalate (inspectEntries entries) ++ "\x7d"
  | .styled className base =>
    "EvalMeta(class_name=" ++ quoted className ++ ", extends=" ++ base.inspect ++ ")"
  | .carrier metadata => metadata.inspect
  | .cycle _ => "..."

def inspectAll : List Value → List String
  | [] => []
  | v :: vs => v.inspect :: inspectAll vs

def inspectEntries : List (String × Value) → List String
  | [] => []
  | (k, v) :: es => (quoted k ++ ": " ++ v.inspect) :: inspectEntries es

end

def Value.display : Value → String
  | .scalar (.string s) => s
  | .scalar (.error message) => message
  | .scalar (.failure message) => message
  | v => v.inspect

mutual

def Value.writeJson : Value → String
  | .scalar s => Json.writeScalar s
  | .array items => "[" ++ ",".intercalate (writeJsonAll items) ++ "]"
  | .object entries => "\x7b" ++ ",".intercalate (writeJsonEntries entries) ++ "\x7d"
  | .styled className base => Json.writeString (Value.styled className base).inspect
  | .carrier metadata => Json.writeString metadata.inspect
  | .cycle _ => "null"

def writeJsonAll : List Value → List String
  | [] => []
  | v :: vs => v.writeJson :: writeJsonAll vs

def writeJsonEntries : List (String × Value) → List String
  | [] => []
  | (k, v) :: es => (Json.writeString k ++ ":" ++ v.writeJson) :: writeJsonEntries es

end

def Value.toText : Value → String
  | .scalar .null => "null"
  | .scalar .undefined => "undefined"
  | .scalar (.bool b) => if b then "true" else "false"
  | .scalar (.number n) => n.render
  | .array items => (Value.array items).writeJson
  | .object entries => (Value.object entries).writeJson
  | v => v.display

end CssExtract.Eval
