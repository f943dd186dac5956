import CssExtract.Eval.Value
import CssExtract.Script.Node
import CssExtract.Text.Position

namespace CssExtract.Styled

open Eval (Value)
open Script (Node)

inductive Knowledge
  | function
  | constant (value : Value)
  /-- Nothing but the module specifiers it is imported from, if it is a name. -/
  | lazy (importedFrom : List String)

structure Operand where
  source : String
  node : Node
  knowledge : Knowledge

def Knowledge.label : Knowledge → String
  | .function => "function"
  | .constant _ => "const"
  | .lazy _ => "lazy"

structure TemplateHole where
  expr : Node
  loc : Option Location
  text : String

structure Template where
  first : String
  holes : List TemplateHole
  loc : Option Location

/-- The literal texts, of which there is one more than there are expressions. -/
def Template.texts (t : Template) : List String := t.first :: t.holes.map (·.text)

inductive Param
  | callee (node : Node)
  | member (name : String)
  | call (arguments : List Operand)
  | template (template : Template)
  | opaqueKind (kind : String)

def Param.kind : Param → String
  | .callee _ => "callee"
  | .member _ => "member"
  | .call _ => "call"
  | .template _ => "template"
  | .opaqueKind kind => kind

inductive Constraint
  | kind (name : String)
  | oneOf (names : List String)
  | any
  | rest
deriving DecidableEq, Repr

def Constraint.admits : Constraint → String → Bool
  | .kind name, k => name = k
  | .oneOf names, k => names.contains k
  | .any, _ => true
  | .rest, _ => true

def eachAdmits : List Constraint → List String → Bool
  | [], _ => true
  | .rest :: _, _ => true
  | _ :: _, [] => false
  | c :: cs, k :: ks => c.admits k && eachAdmits cs ks

def hasShape (constraints : List Constraint) (kinds : List String) : Bool :=
  (constraints.isEmpty || constraints.getLast? = some .rest || kinds.length = constraints.length) &&
    eachAdmits constraints kinds

end CssExtract.Styled
