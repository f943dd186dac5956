import CssExtract.Eval.Value
import CssExtract.Json.Read
import CssExtract.Package.Manifest
import CssExtract.Styled.Generator

namespace CssExtract.Styled

open Eval (Value)

def defaultExtensions : List String := [".js", ".jsx", ".ts", ".tsx", ".mjs", ".cjs"]

structure Options where
  extensions : List String := defaultExtensions
  variableNaming : VariableNaming := .default
  displayName : Bool := false
  classNaming : ClassNaming := .default
  /-- The directory file names in slugs are relative to. -/
  root : Option String := none
  tag : String := "styled"

structure Settings where
  extensions : List Value := defaultExtensions.map .string
  variableNameSlug : Value := .null
  displayName : Value := .bool false
  classNameSlug : Value := .null
  root : Value := .null
  tag : Value := .string "styled"

inductive SettingsError
  | unknown (names : List String)
  | notIterable
  | notObject (path : String)
  | invalidDocument (text : List Char) (error : Json.ReadError)
  | unreadable (fault : Tree.ReadFault)
  | wrongType

def SettingsError.message : SettingsError → String
  | .unknown names => "Unknown option(s): " ++ ", ".intercalate names
  | .notIterable => "extensions are no list"
  | .notObject path => path ++ ": expected a JSON object"
  | .invalidDocument text error => error.message text
  | .unreadable (.encoding e) => e.message
  | .unreadable (.withheld reason) => reason
  | .unreadable _ => "No such file or directory"
  | .wrongType => "unusable setting"

namespace Settings

def names : List String :=
  ["extensions", "variableNameSlug", "displayName", "classNameSlug", "root", "tag"]

def items? : Value → Option (List Value)
  | .array items => some items
  | .scalar (.string s) => some (s.toList.map fun c => .string (String.singleton c))
  | .object entries => some (entries.map fun (name, _) => .string name)
  | _ => none

def set (settings : Settings) (name : String) (value : Value) : Except SettingsError Settings :=
  match name with
  | "extensions" =>
    match items? value with
    | some items => .ok { settings with extensions := items }
    | none => .error .notIterable
  | "variableNameSlug" => .ok { settings with variableNameSlug := value }
  | "displayName" => .ok { settings with displayName := value }
  | "classNameSlug" => .ok { settings with classNameSlug := value }
  | "root" => .ok { settings with root := value }
  | "tag" => .ok { settings with tag := value }
  | _ => .error (.unknown [name])

def ofEntries (entries : Entries Value) : Except SettingsError Settings :=
  let unknown := (entries.map (·.1)).filter (· ∉ names)
  if unknown.isEmpty then entries.foldlM (fun settings (name, value) => settings.set name value) {}
  else .error (.unknown (unknown.mergeSort fun a b => decide (a ≤ b)))

def load (t : Tree) (path : String) : Except SettingsError Settings :=
  match t.readText (Path.ofString path) with
  | .error fault => .error (.unreadable fault)
  | .ok text =>
    match Json.read text with
    | .error e => .error (.invalidDocument text e)
    | .ok (.object entries) => ofEntries entries
    | .ok _ => .error (.notObject path)

def string? : Value → Option String
  | .scalar (.string s) => some s
  | _ => none

def options (settings : Settings) (variableNaming : VariableNaming) (classNaming : ClassNaming) :
    Except SettingsError Options := do
  let some extensions := settings.extensions.mapM string? | .error .wrongType
  let variableNaming ← match settings.variableNameSlug with
    | .scalar (.string s) => .ok (if s.isEmpty then .default else .pattern s)
    | .scalar .function => .ok variableNaming
    | value => if value.truthy then .error .wrongType else .ok .default
  let classNaming := match settings.classNameSlug with
    | .scalar (.string s) => .pattern s
    | .scalar .function => classNaming
    | _ => .default
  let root ← match settings.root with
    | .scalar (.string s) => .ok (some s)
    | value => if value.truthy then .error .wrongType else .ok none
  let some tag := string? settings.tag | .error .wrongType
  return { extensions, variableNaming, displayName := settings.displayName.truthy, classNaming, root, tag }

end Settings

end CssExtract.Styled
