import CssExtract.Script.Print
import CssExtract.Styled.CallSite
import CssExtract.Styled.Component
import CssExtract.Styled.Element
import CssExtract.Styled.Reference
import CssExtract.Styled.Rule
import CssExtract.Styled.Variable

namespace CssExtract.Styled

open Eval
open Script (Node Property Key)

structure Interpolation where
  id : String
  node : Node
  source : String
  unit : String

structure Replacement where
  node : Node
  /-- Evaluating the replacement has no effect but its value. -/
  isPure : Bool

structure Processor where
  callee : Node
  template : Template
  component : Component
  dependencies : List Operand
  options : Options
  filename : Option String
  location : Option Location
  displayName : String
  className : String
  slug : String
  issued : Variables := {}
  interpolations : List Interpolation := []
  cssText : Option String := none
  replacement : Option Replacement := none

inductive CreationError
  | skip
  | failed (failure : Failure)
  /-- The first parameter is no callee, though its kind says so. -/
  | noCallee

structure SiteContext where
  displayName : String
  idx : Int
  options : Options
  filename : Option String
  location : Option Location

def SiteContext.importer (s : SiteContext) : Importer := ⟨s.filename, s.options.extensions⟩

def invalidUsage : String := "Invalid usage of `styled` tag"

def misused (loc : Option Location) : Failure := .styled ⟨.invalidUsage invalidUsage, loc⟩

def componentOf (t : Host) (s : SiteContext) : Param → Warned (Component × List Operand)
  | .member name => return (.tag name, [])
  | .call [argument] =>
    match argument.knowledge, argument.node with
    | .function, _ => return (.function, [])
    | .constant (.scalar (.string name)), _ => return (.tag name, [])
    | .lazy importedFrom, .identifier name => do
      if ← isForeign t s.importer argument.source importedFrom then
        return (.reference name argument.source true, [])
      else return (.reference name argument.source false, [argument])
    | _, _ => throw (misused s.location)
  | _ => throw (misused s.location)

def anySite : List Constraint := [.kind "callee", .any, .rest]

/-- The kinds of parameters of a call site that can be processed, or that already has been. -/
def supportedSite : List Constraint :=
  [.kind "callee", .oneOf ["call", "member"], .oneOf ["template", "call"]]

def Processor.create (t : Host) (s : SiteContext) (params : List Param) :
    Except CreationError Processor × List Warning :=
  let kinds := params.map Param.kind
  if !hasShape anySite kinds then (.error .skip, [])
  else if !hasShape supportedSite kinds then (.error (.failed (misused none)), [])
  else match params with
    | [callee, operation, .template template] =>
      match callee with
      | .callee node =>
        let names := namesOf s.displayName s.idx s.options s.filename
        let (result, warnings) := (componentOf t s operation).run.run []
        match result with
        | .error failure => (.error (.failed failure), warnings)
        | .ok (component, dependencies) =>
          (.ok {
            callee := node, template, component, dependencies
            options := s.options, filename := s.filename, location := s.location
            displayName := s.displayName, className := names.className, slug := names.slug },
            warnings)
      | _ => (.error .noCallee, [])
    | _ => (.error .skip, [])

namespace Processor

variable (p : Processor)

def selector : String := "." ++ p.className

def argumentText : String :=
  match p.component with
  | .function => "() => \x7b…\x7d"
  | .tag name => "'" ++ name ++ "'"
  | .reference _ source _ => source

def title : String := p.callee.code ++ "(" ++ p.argumentText ++ ")`…`"

def context (source unit precedingCss : String) : VariableContext :=
  variableContext p.displayName p.slug source unit precedingCss

def onVariables {α : Type} (action : StateM Variables α) : α × Processor :=
  let (a, issued) := action.run p.issued
  (a, { p with issued })

def allocateIndex : Nat × Processor := p.onVariables Variables.allocate

def customVariableId (source unit precedingCss : String) : Option String × Processor :=
  p.onVariables (Variables.customId p.options.variableNaming (p.context source unit precedingCss))

def variableId (source unit precedingCss : String) : String × Processor :=
  p.onVariables (Variables.idFor p.options.variableNaming (p.context source unit precedingCss))

def addInterpolation (node : Node) (precedingCss source unit : String) : String × Processor :=
  let (id, p) := p.variableId source unit precedingCss
  (id, { p with interpolations := p.interpolations ++ [⟨id, node, source, unit⟩] })

def extractRules (cache : ValueCache) (cssText : String) (loc : Option Location) :
    Except Failure Rules :=
  let wrapped := match p.component with
    | .reference name _ false => cache.classNames name
    | _ => .ok []
  match wrapped with
  | .error names =>
    .error (.styled ⟨.cyclicExtends p.title (selectorOf (p.className :: names)), loc⟩)
  | .ok names =>
    let selector := selectorOf (p.className :: names)
    .ok [(selector, ⟨selector, cssText, p.className, p.displayName, loc.map (·.start)⟩)]

def valueText (value : Value) (hole : TemplateHole) : Except Failure String :=
  match value.metadata? with
  | some (className, _) => .ok ("." ++ className)
  | none => do
    checkValue value hole.expr hole.loc
    return cssOf value

def fixedValue? (values : List (Nat × Value)) (index : Nat) : Option Value :=
  match values.lookup index with
  | some (.scalar .function) => none
  | value => value

/-- The style sheet text of an expression and the literal text after it. An expression without a
value becomes a variable together with the unit after it. -/
def buildHole (values : List (Nat × Value)) (precedingCss : String) (hole : TemplateHole)
    (index : Nat) : Except Failure String × Processor :=
  match hole.expr.code? with
  | none => (.error .notCode, p)
  | some source =>
    match fixedValue? values index with
    | some value => ((valueText value hole).map (· ++ hole.text), p)
    | none =>
      let unit := unitAt hole.text.toList
      let rest := String.ofList (hole.text.toList.drop unit.length)
      let (id, p) := p.addInterpolation (.arrow [] hole.expr) precedingCss source (String.ofList unit)
      (.ok ("var(--" ++ id ++ ")" ++ rest), p)

def buildHoles (values : List (Nat × Value)) :
    List TemplateHole → Nat → String → Processor → Except Failure String × Processor
  | [], _, css, p => (.ok css, p)
  | hole :: holes, index, css, p =>
    match p.buildHole values css hole index with
    | (.ok text, p) => buildHoles values holes (index + 1) (css ++ text) p
    | (.error failure, p) => (.error failure, p)

/-- Turns the template into style sheet text, once, and extracts its rule. -/
def build (cache : ValueCache) (values : List (Nat × Value)) : Except Failure Rules × Processor :=
  if p.cssText.isSome then (.error (.alreadyBuilt p.title), p)
  else match buildHoles values p.template.holes 0 p.template.first p with
    | (.error failure, p) => (.error failure, p)
    | (.ok css, p) =>
      let p := { p with cssText := some css }
      (p.extractRules cache css p.location, p)

def property (name : String) (value : Node) : Property := .mk (.string name '"') value

def metadata : Node :=
  let base := match p.component with
    | .reference name _ false => Node.call (.identifier name) []
    | _ => .null
  .object [
    property "displayName" (.quoted p.displayName),
    property metadataKey
      (.object [property "className" (.quoted p.className), property "extends" base])]

def tagArgument : Node :=
  match p.component with
  | .function => .arrow [] (.block [])
  | .tag name => .string name '\''
  | .reference name _ _ => .identifier name

def tagCall : Node := .call p.callee [p.tagArgument]

end Processor

inductive PropValue
  | null
  | bool (b : Bool)
  | text (s : String)
  | vars (items : Entries (List Node))

def PropValue.node : PropValue → Node
  | .null => .null
  | .bool b => .bool b
  | .text s => .quoted s
  | .vars items => .object (items.map fun (name, nodes) => .mk (.string name '"') (.array nodes))

def propsNode (props : List (String × PropValue)) : Node :=
  .object (props.map fun (name, value) => .mk (.identifier name) value.node)

namespace Processor

variable (p : Processor)

def vars : Entries (List Node) :=
  p.interpolations.foldl (fun vars i =>
    vars.set i.id (.call i.node [] :: (if i.unit.isEmpty then [] else [.quoted i.unit]))) []

def passesAllProps : Bool :=
  match p.component with
  | .tag name => !isKnownElement name
  | _ => true

def props : List (String × PropValue) :=
  [("name", .text p.displayName), ("class", .text p.className), ("propsAsIs", .bool p.passesAllProps)] ++
    (if p.interpolations.isEmpty then [] else [("vars", .vars p.vars)])

def wrapper : Node := .call p.tagCall [propsNode p.props]

def replace (node : Node) (isPure : Bool) : Except Failure Processor :=
  if p.replacement.isSome then .error (.alreadyReplaced p.title)
  else .ok { p with replacement := some ⟨node, isPure⟩ }

def replaceForEvaluation : Except Failure Processor := p.replace p.metadata false

def replaceForRuntime : Except Failure Processor := p.replace p.wrapper true

end Processor

end CssExtract.Styled
