import CssExtract.Script.Constants
import CssExtract.Script.Head
import CssExtract.Script.Site
import CssExtract.Styled.Param

namespace CssExtract.Styled

open Eval (Value)
open Script Text

structure CallSite where
  params : List Param
  span : Span
  text : String
  loc : Location
  binding : Option String
  idx : Nat

inductive ParseCause
  | scan (cause : ScanCause)
  | head (filename : Option String) (site : Position) (error : HeadError)
  | siteCount (tag : String) (count : Nat)
deriving DecidableEq, Repr

structure ParseError where
  cause : ParseCause
  place : Option Position
deriving DecidableEq, Repr

def ParseError.message (e : ParseError) : String :=
  match e.cause with
  | .scan cause => cause.message
  | .head filename site error =>
    (filename.filter (!·.isEmpty)).getD "<source>" ++ ":" ++ toString site.line ++ ":" ++
      toString site.column ++ ": " ++ error.message
  | .siteCount tag count =>
    "Expected exactly one `" ++ tag ++ "` call site, found " ++ toString count

def ParseError.ofScan (source : List Char) (e : ScanError) : ParseError :=
  ⟨.scan e.cause, some (position source e.offset)⟩

def constantNode : Value → Node
  | .scalar (.bool b) => .bool b
  | .scalar (.number n) => .number n
  | .scalar (.string s) => .quoted s
  | _ => .null

def operandOf (imports : Imports) (a : Argument) : Operand :=
  match a.shape with
  | .function => ⟨a.source, .raw a.source, .function⟩
  | .constant value => ⟨a.source, constantNode value, .constant value⟩
  | .identifier => ⟨a.source, .identifier a.source, .lazy (imports.sources a.source)⟩
  | .expression => ⟨a.source, .raw a.source, .lazy []⟩

def opParam (imports : Imports) : Op → Param
  | .member name => .member name
  | .call arguments => .call (arguments.map (operandOf imports))

def templateOf (source : List Char) (filename : Option String) (raw : RawTemplate) : Template :=
  ⟨raw.first,
    raw.holes.map fun hole => ⟨.raw hole.source, some (location source filename hole.span), hole.text⟩,
    some (location source filename raw.span)⟩

def paramsOf (source : List Char) (filename : Option String) (imports : Imports) (raw : RawSite)
    (head : Head) : List Param :=
  .callee (.identifier head.callee) :: head.ops.map (opParam imports) ++
    (raw.template.map fun t => .template (templateOf source filename t)).toList

def callSiteOf (source : List Char) (filename : Option String) (imports : Imports) (raw : RawSite)
    (idx : Nat) : Except ParseError CallSite :=
  match readHeadText raw.head.toList with
  | .ok head =>
    .ok {
      params := paramsOf source filename imports raw head
      span := raw.span
      text := String.ofList (slice source raw.span)
      loc := location source filename raw.span
      binding := (bindingBefore? (source.take raw.span.start)).map String.ofList
      idx := idx }
  | .error e =>
    let pos := position source raw.span.start
    .error ⟨.head filename pos e, some pos⟩

/-- The call sites of a tag in source order; sites whose head cannot be read stand as errors. -/
def findCallSites (source : List Char) (tag : String) (filename : Option String) (imports : Imports) :
    Except ParseError (List (Except ParseError CallSite)) :=
  match findSites source tag.toList with
  | .error e => .error (.ofScan source e)
  | .ok sites => .ok (sites.zipIdx.map fun (raw, idx) => callSiteOf source filename imports raw idx)

def allCallSites (source : List Char) (tag : String) (filename : Option String) (imports : Imports) :
    Except ParseError (List CallSite) := do
  (← findCallSites source tag filename imports).mapM id

def parseCallSite (source : List Char) (tag : String) (imports : Imports) : Except ParseError CallSite := do
  match ← allCallSites source tag none imports with
  | [site] => .ok site
  | sites => .error ⟨.siteCount tag sites.length, none⟩

end CssExtract.Styled
