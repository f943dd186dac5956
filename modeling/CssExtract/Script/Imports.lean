import CssExtract.Text.Blank
import CssExtract.Text.Cut
import CssExtract.Text.Word

namespace CssExtract.Script

open Text

/-- Names in order of their first binding, each with its different specifiers in order. -/
abbrev Imports := List (String × List String)

namespace Imports

def sources (imports : Imports) (name : String) : List String := (imports.lookup name).getD []

def add (name source : String) : Imports → Imports
  | [] => [(name, [source])]
  | (n, sources) :: rest =>
    if n = name then (n, if source ∈ sources then sources else sources ++ [source]) :: rest
    else (n, sources) :: add name source rest

end Imports

inductive ImportError
  | unnamedNamespace
deriving DecidableEq, Repr

def someBlanks? : List Char → Option (List Char)
  | c :: s => if isBlank c then some (trimStart s) else none
  | [] => none

def specifier? : List Char → Option (List Char × List Char)
  | quote :: s =>
    if quote = '\'' || quote = '"' then
      let source := s.takeWhile fun c => c ≠ '\'' && c ≠ '"'
      match s.drop source.length with
      | close :: rest => if close = quote && !source.isEmpty then some (source, rest) else none
      | [] => none
    else none
  | [] => none

def fromSpecifier? (s : List Char) : Option (List Char × List Char) := do
  let s ← after? "from".toList (← someBlanks? s)
  specifier? (← someBlanks? s)

def isClausePart (c : Char) : Bool :=
  isNamePart c || isBlank c || c = '{' || c = '}' || c = ',' || c = '*'

/-- The shortest clause that a `from` follows, the specifier and what follows it. -/
def clause? : List Char → Option (List Char × List Char × List Char)
  | [] => none
  | c :: s =>
    if !isClausePart c then none
    else match fromSpecifier? s with
      | some (source, rest) => some ([c], source, rest)
      | none => (clause? s).map fun (clause, found) => (c :: clause, found)

def matched {α : Type} (s : List Char) : α × List Char → α × Nat
  | (a, rest) => (a, s.length - rest.length)

/-- The clause and the specifier of an import declaration. A `type` marker is no part of the
clause unless nothing else is left for it. -/
def import? (previous : Option Char) (s : List Char) : Option ((List Char × List Char) × Nat) := do
  guard (!previous.any isWord)
  let s₁ ← after? "import".toList s
  let (clause, source, rest) ← (pastSomeBlanks s₁).findSome? fun s₂ =>
    (((after? "type".toList s₂).bind fun s₃ => (pastSomeBlanks s₃).findSome? clause?).or (clause? s₂))
  some (matched s ((clause, source), rest))

def declarator? (s : List Char) : Option (List Char) :=
  (after? "const".toList s).or ((after? "let".toList s).or (after? "var".toList s))

def target? : List Char → Option (List Char × List Char)
  | '{' :: s =>
    let body := s.takeWhile (· ≠ '}')
    match s.drop body.length with
    | close :: rest => some ('{' :: body ++ [close], rest)
    | [] => none
  | s =>
    let name := s.takeWhile isNamePart
    if name.isEmpty then none else some (name, s.drop name.length)

def require? (previous : Option Char) (s : List Char) : Option ((List Char × List Char) × Nat) := do
  guard (!previous.any isWord)
  let (target, s₁) ← target? (← someBlanks? (← declarator? s))
  let s₂ ← after? ['='] (trimStart s₁)
  let s₃ ← after? "require(".toList (trimStart s₂)
  let (source, s₄) ← specifier? (trimStart s₃)
  let rest ← after? [')'] (trimStart s₄)
  some (matched s ((target, source), rest))

def bindingNames (separator body : List Char) : List (List Char) :=
  ((splitOn ',' body).map trim).filterMap fun part =>
    if part.isEmpty then none
    else
      let name := ((afterFirst? separator part).map trim).getD part
      some (((after? "type ".toList name).map trim).getD name)

def cutBraces? (s : List Char) : Option (List Char × List Char × List Char) :=
  let before := s.takeWhile (· ≠ '{')
  match s.drop before.length with
  | _ :: s =>
    let body := s.takeWhile (· ≠ '}')
    match s.drop body.length with
    | _ :: after => some (before, body, after)
    | [] => none
  | [] => none

def clauseNames (clause : List Char) : Except ImportError (List (List Char)) := do
  let (named, clause) := match cutBraces? clause with
    | some (before, body, after) => (bindingNames " as ".toList body, before ++ after)
    | none => ([], clause)
  let parts := ((splitOn ',' clause).map trim).filter (!·.isEmpty)
  let others ← parts.mapM fun part =>
    if part.head? = some '*' then
      match afterFirst? " as ".toList part with
      | some name => .ok (trim name)
      | none => .error .unnamedNamespace
    else .ok part
  .ok (named ++ others)

def targetNames (target : List Char) : List (List Char) :=
  if target.head? = some '{' then bindingNames [':'] (target.tail.dropLast) else [target]

def Imports.addAll (imports : Imports) (names : List (List Char)) (source : List Char) : Imports :=
  names.foldl (fun imports name => imports.add (String.ofList name) (String.ofList source)) imports

def parseImports (s : List Char) : Except ImportError Imports := do
  let declared ← (allMatches import? s).mapM fun (clause, source) =>
    (clauseNames clause).map (·, source)
  let required := (allMatches require? s).map fun (target, source) => (targetNames target, source)
  .ok ((declared ++ required).foldl (fun imports (names, source) => imports.addAll names source) [])

end CssExtract.Script
