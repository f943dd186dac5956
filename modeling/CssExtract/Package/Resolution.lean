import CssExtract.Files.Tree
import CssExtract.Json.Read

namespace CssExtract.Package

open Eval (Value)

inductive ResolutionError
  | notFound (specifier base : String)
  /-- An extension does not make a file name of the target's last component. -/
  | invalidName
  | access (fault : Tree.Fault)
deriving DecidableEq, Repr

def ResolutionError.message : ResolutionError → String
  | .notFound specifier base => "Cannot find module '" ++ specifier ++ "' from '" ++ base ++ "'"
  | .invalidName => "invalid file name"
  | .access _ => "refused file name"

variable (t : Tree)

def manifestName : String := "package.json"

def isPathSpecifier (specifier : String) : Bool :=
  specifier = "." || specifier = ".." ||
    ["./", "../", "/"].any fun start => start.toList.isPrefixOf specifier.toList

def checkFile (p : Path) : Except ResolutionError Bool := (t.isFile p).mapError .access

def withExtension? (target : Path) : List String → Except ResolutionError (Option Path)
  | [] => .ok none
  | extension :: rest =>
    match target.addExtension? extension with
    | none => .error .invalidName
    | some candidate => do
      if ← checkFile t candidate then return some candidate else withExtension? target rest

def asFile? (target : Path) (extensions : List String) : Except ResolutionError (Option Path) := do
  if ← checkFile t target then return some target else withExtension? t target extensions

def index? (target : Path) (extensions : List String) : Except ResolutionError (Option Path) :=
  (extensions.map fun extension => target.child ("index" ++ extension)).findM? (checkFile t)

def manifest? (p : Path) : Option Value :=
  match t.readText p with
  | .ok s => (Json.read s).toOption
  | .error _ => none

def mainIn? (manifest : Path) : Option String :=
  match manifest? t manifest with
  | some (.object entries) =>
    match Entries.get? "main" entries with
    | some (.scalar (.string main)) => if main.isEmpty then none else some main
    | _ => none
  | _ => none

def main? (target : Path) : Except ResolutionError (Option String) := do
  let manifest := target.child manifestName
  return if ← checkFile t manifest then mainIn? t manifest else none

def asDirectory? (target : Path) (extensions : List String) : Except ResolutionError (Option Path) := do
  if !(← (t.isDirectory target).mapError .access) then return none
  let main ← match ← main? t target with
    | some main => do
      let main := target.child main
      match ← asFile? t main extensions with
      | some found => pure (some found)
      | none => index? t main extensions
    | none => pure none
  match main with
  | some found => return some found
  | none => index? t target extensions

def load? (target : Path) (extensions : List String) : Except ResolutionError (Option Path) := do
  match ← asFile? t target extensions with
  | some found => return some found
  | none => asDirectory? t target extensions

def moduleDirectories (base : Path) : List Path :=
  (base.ancestors.filter (·.name ≠ "node_modules")).map (·.child "node_modules")

def loadFirst? (extensions : List String) : List Path → Except ResolutionError (Option Path)
  | [] => return none
  | target :: rest => do
    match ← load? t target extensions with
    | some found => return some found
    | none => loadFirst? extensions rest

def targets (base : Path) (specifier : String) : List Path :=
  if isPathSpecifier specifier then [base.child specifier]
  else (moduleDirectories base).map (·.child specifier)

def resolveModule (specifier : String) (directory : Path) (extensions : List String) :
    Except ResolutionError Path := do
  let base ← (t.resolve directory).mapError .access
  match ← loadFirst? t extensions (targets base specifier) with
  | some found => (t.resolve found).mapError .access
  | none => .error (.notFound specifier base.toString)

end CssExtract.Package
