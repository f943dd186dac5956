import CssExtract.Number.Render

namespace CssExtract.Script

inductive Key
  | identifier (name : String)
  | string (value : String) (quote : Char)

def Key.name : Key → String
  | .identifier name => name
  | .string value _ => value

mutual

inductive Node
  | identifier (name : String)
  | string (value : String) (quote : Char)
  | number (value : Number)
  | bool (value : Bool)
  | null
  /-- Source text that is carried along unread. -/
  | raw (source : String)
  | member (object : Node) (property : String)
  | call (callee : Node) (arguments : List Node)
  | block (body : List Node)
  | arrow (params : List String) (body : Node)
  | property (entry : Property)
  | object (entries : List Property)
  | array (elements : List Node)
  | text (value : String)
  /-- Literal text, then expressions with the literal text after each. -/
  | template (first : String) (holes : List Hole)

inductive Property
  | mk (key : Key) (value : Node)

inductive Hole
  | mk (expr : Node) (text : String)

end

instance : Inhabited Node := ⟨.null⟩

def Property.key : Property → Key
  | .mk key _ => key

def Property.value : Property → Node
  | .mk _ value => value

namespace Node

abbrev quoted (value : String) : Node := .string value '"'

def ofPieces? : List String → List Node → Option Node
  | first :: texts, exprs =>
    if texts.length = exprs.length then some (.template first (List.zipWith .mk exprs texts)) else none
  | [], _ => none

def get? (name : String) : List Property → Option Node
  | [] => none
  | p :: ps => if p.key.name = name then some p.value else get? name ps

def kind : Node → String
  | .identifier _ => "Identifier"
  | .string .. => "StringLiteral"
  | .number _ => "NumericLiteral"
  | .bool _ => "BooleanLiteral"
  | .null => "NullLiteral"
  | .raw _ => "RawExpression"
  | .member .. => "MemberExpression"
  | .call .. => "CallExpression"
  | .block _ => "BlockStatement"
  | .arrow .. => "ArrowFunctionExpression"
  | .property _ => "ObjectProperty"
  | .object _ => "ObjectExpression"
  | .array _ => "ArrayExpression"
  | .text _ => "TemplateElement"
  | .template .. => "TemplateLiteral"

end Node

end CssExtract.Script
