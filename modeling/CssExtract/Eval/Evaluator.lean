import CssExtract.Eval.Graph
import CssExtract.Script.Literal
import CssExtract.Script.Node
import CssExtract.Text.Blank
import CssExtract.Text.Quoted

namespace CssExtract.Eval

open Script Text

inductive EvalError
  | unbound (name : String)
  | unsupportedCall
  | unsupportedNode (kind : String)
  | unsupportedText (text : String)
  | endless
deriving DecidableEq, Repr

def EvalError.message : EvalError → String
  | .unbound name => name ++ " is not defined at compile time"
  | .unsupportedCall => "only zero-argument calls of bindings can be evaluated"
  | .unsupportedNode kind => "cannot evaluate " ++ kind
  | .unsupportedText text => "cannot evaluate " ++ quoted text
  | .endless => "endless evaluation"

/-- Bindings, the values already known of them, and the graph these are in. -/
structure Evaluator where
  bindings : Entries Node := []
  known : Entries Point := []
  graph : Graph := {}

/-- What was learnt before an error is kept. -/
abbrev Evaluation := ExceptT EvalError (StateM Evaluator)

namespace Evaluator

def bind (name : String) (node : Node) (e : Evaluator) : Evaluator :=
  { e with bindings := e.bindings.set name node, known := e.known.erase name }

def know (name : String) (p : Point) : Evaluation Unit := modify fun e => { e with known := e.known.set name p }

def forget (name : String) : Evaluation Unit := modify fun e => { e with known := e.known.erase name }

def insert (c : Container) : Evaluation Point := do
  let (id, graph) := (← get).graph.insert c
  modify fun e => { e with graph := graph }
  return .container id

def setEntry (p : Point) (key : String) (value : Point) : Evaluation Unit :=
  match p with
  | .container id => modify fun e => { e with graph := e.graph.setEntry id key value }
  | .scalar _ => pure ()

def global? (name : String) : Option Scalar :=
  Entries.get? name [("undefined", .undefined), ("null", .null), ("true", .bool true),
    ("false", .bool false), ("NaN", .number (.float (0.0 / 0.0))),
    ("Infinity", .number (.float (1.0 / 0.0)))]

def readNumber (s : List Char) : Number :=
  let x := readFloat s
  if '.' ∈ s || 'e' ∈ s || 'E' ∈ s then .float x
  else match Number.integral? x with
    | some n => .int n
    | none => .float x

def unquote (s : List Char) : List Char :=
  let quote := s.head?.getD '"'
  unescape '\\' '\\' (unescape 'n' '\n' (unescape quote quote (inner s)))

def readRaw (look : String → Evaluation Point) (s : List Char) : Evaluation Point :=
  if signedNumberLength? s = some s.length then return .scalar (.number (readNumber s))
  else if stringLength? s = some s.length then return .scalar (.string (String.ofList (unquote s)))
  else if nameLength? isNamePart s = some s.length then look (String.ofList s)
  else throw (.unsupportedText (String.ofList s))

def isCall : Node → Bool
  | .call .. => true
  | _ => false

mutual

def evalNode (look : String → Evaluation Point) : Node → Evaluation Point
  | .string value _ => return .scalar (.string value)
  | .number value => return .scalar (.number value)
  | .bool value => return .scalar (.bool value)
  | .null => return .scalar .null
  | .identifier name => look name
  | .call (.identifier name) [] => look name
  | .call .. => throw .unsupportedCall
  | .object entries => do
    let p ← insert (.object [])
    fillObject look p entries
    return p
  | .array elements => do insert (.array (← evalAll look elements))
  | .raw source => readRaw look (trim source.toList)
  | .member .. => throw (.unsupportedNode "MemberExpression")
  | .block _ => throw (.unsupportedNode "BlockStatement")
  | .arrow .. => throw (.unsupportedNode "ArrowFunctionExpression")
  | .property _ => throw (.unsupportedNode "ObjectProperty")
  | .text _ => throw (.unsupportedNode "TemplateElement")
  | .template .. => throw (.unsupportedNode "TemplateLiteral")

def evalAll (look : String → Evaluation Point) : List Node → Evaluation (List Point)
  | [] => return []
  | node :: nodes => do
    let p ← evalNode look node
    return p :: (← evalAll look nodes)

/-- Sets the entries of an object. A call that cannot be evaluated stands for something that
only exists when the script runs. -/
def fillObject (look : String → Evaluation Point) (p : Point) : List Property → Evaluation Unit
  | [] => return ()
  | .mk key value :: rest => do
    let point ← tryCatch (evalNode look value) fun error =>
      if isCall value && error ≠ .endless then return .scalar .undefined else throw error
    setEntry p key.name point
    fillObject look p rest

end

def lookupWithin : Nat → String → Evaluation Point
  | 0, _ => throw .endless
  | depth + 1, name => do
    let e ← get
    match e.known.get? name, e.bindings.get? name with
    | some p, _ => return p
    | none, none =>
      match global? name with
      | some s => return .scalar s
      | none => throw (.unbound name)
    | none, some (.object entries) => do
      let p ← insert (.object [])
      know name p
      tryCatch (fillObject (lookupWithin depth) p entries) fun error => do
        forget name
        throw error
      return p
    | none, some node => do
      let p ← evalNode (lookupWithin depth) node
      know name p
      return p

/-- Between two objects entered on the way down, names repeat only in an endless evaluation. -/
def maxDepth (e : Evaluator) : Nat := (e.bindings.length + 1) * (e.bindings.length + 2)

def lookup (name : String) : Evaluation Point := do lookupWithin (maxDepth (← get)) name

def evaluate (node : Node) : Evaluation Point := do evalNode (lookupWithin (maxDepth (← get))) node

def valuesOf : List String → StateM Evaluator (Entries Point)
  | [] => return []
  | name :: names => do
    match ← (lookup name).run with
    | .ok p => return (name, p) :: (← valuesOf names)
    | .error _ => valuesOf names

def values : StateM Evaluator (Entries Point) := do valuesOf ((← get).bindings.map (·.1))

end Evaluator

end CssExtract.Eval
