import CssExtract.Eval.Evaluator
import CssExtract.Styled.Processor

namespace CssExtract.Styled

open Eval Script

inductive Mode
  | runtime
  | eval
deriving DecidableEq, Repr

def Mode.name : Mode → String
  | .runtime => "runtime"
  | .eval => "eval"

def Mode.all : List Mode := [.runtime, .eval]

def Mode.ofName? (name : String) : Option Mode := Mode.all.find? (·.name = name)

def unknownMode (name : String) : String :=
  "Unknown mode " ++ Text.quoted name ++ "; expected one of " ++ ", ".intercalate (Mode.all.map Mode.name)

structure ProcessedSite where
  site : CallSite
  processor : Processor

structure Extraction where
  code : String
  rules : Rules := []
  diagnostics : List Diagnostic := []
  dependencies : List String := []
  sites : List ProcessedSite := []

def Extraction.hasErrors (e : Extraction) : Bool := e.diagnostics.any Diagnostic.isError

def Rule.render (r : Rule) : String := r.selector ++ " \x7b" ++ r.cssText ++ "\x7d"

def Extraction.css (e : Extraction) : String := "\n".intercalate (e.rules.map fun (_, r) => r.render)

inductive ExtractionError
  | imports (error : ImportError)
  | site (failure : Failure)
  | endless

def parseDiagnostic (filename : Option String) (e : ParseError) : Diagnostic :=
  ⟨"parse-error", .error, e.message, e.place.map fun pos => ⟨pos, none, filename⟩, none⟩

def warningDiagnostic (site : CallSite) (w : Warning) : Diagnostic :=
  ⟨w.code, .warning, w.message, some site.loc, none⟩

def defaultName (filename : Option String) (idx : Nat) : String :=
  (match filename.filter (!·.isEmpty) with
    | some name => (Path.ofString name).stem
    | none => "styled") ++ toString idx

def contextOf (options : Options) (filename : Option String) (site : CallSite) : SiteContext :=
  ⟨site.binding.getD (defaultName filename site.idx), site.idx, options, filename, some site.loc⟩

/-- The processors of call sites, but for sites to be skipped and failures that are reported. -/
def createAll (t : Host) (options : Options) (filename : Option String) :
    List CallSite → Except Failure (List ProcessedSite × List Diagnostic)
  | [] => .ok ([], [])
  | site :: rest => do
    let (created, warnings) := Processor.create t (contextOf options filename site) site.params
    let (processed, reported) ← match created with
      | .ok processor => .ok ([⟨site, processor⟩], [])
      | .error (.failed (.styled e)) => .ok ([], [e.diagnostic (some site.loc)])
      | .error (.failed failure) => .error failure
      | .error .skip | .error .noCallee => .ok ([], [])
    let (others, diagnostics) ← createAll t options filename rest
    return (processed ++ others, reported ++ warnings.map (warningDiagnostic site) ++ diagnostics)

def moduleBindings (source : List Char) (processed : List ProcessedSite) : Evaluator :=
  let constants : Evaluator :=
    { bindings := (parseConstants source).map fun (name, literal) => (name, .raw literal) }
  processed.foldl (fun e item =>
    match item.site.binding with
    | some name => e.bind name item.processor.metadata
    | none => e) constants

def holeValues : List TemplateHole → Nat → StateM Evaluator (List (Nat × Value))
  | [], _ => return []
  | hole :: holes, index => do
    let result ← (Evaluator.evaluate hole.expr).run
    let values ← holeValues holes (index + 1)
    match result with
    | .ok point => return (index, (← get).graph.toValue point) :: values
    | .error _ => return values

def Processor.replaceFor (mode : Mode) (p : Processor) : Except Failure Processor :=
  match mode with
  | .runtime => p.replaceForRuntime
  | .eval => p.replaceForEvaluation

def finishAll (mode : Mode) (points : Entries Point) :
    List ProcessedSite → Evaluator → Except Failure (List ProcessedSite × List Rules × List Diagnostic)
  | [], _ => .ok ([], [], [])
  | item :: rest, e => do
    let (values, e) := (holeValues item.processor.template.holes 0).run e
    let (result, processor) := item.processor.build ⟨e.graph, points⟩ values
    let (processor, rules, reported) ← match result with
      | .ok rules => do .ok (← processor.replaceFor mode, [rules], [])
      | .error (.styled error) => .ok (processor, [], [error.diagnostic (some item.site.loc)])
      | .error failure => .error failure
    let (items, otherRules, diagnostics) ← finishAll mode points rest e
    return (⟨item.site, processor⟩ :: items, rules ++ otherRules, reported ++ diagnostics)

/-- A source with texts in the place of spans that are in order and do not overlap; `i` is the
offset of the rest of the source. -/
def splice (i : Nat) (source : List Char) : List (Span × List Char) → List Char
  | [] => source
  | (span, text) :: rest =>
    source.take (span.start - i) ++ text ++ splice span.stop (source.drop (span.stop - i)) rest

def replacements (items : List ProcessedSite) : List (Span × List Char) :=
  items.filterMap fun item =>
    item.processor.replacement.map fun r => (item.site.span, r.node.print 0)

def extract (t : Host) (options : Options) (mode : Mode) (filename : Option String) (text : String) :
    Except ExtractionError Extraction :=
  let source := text.toList
  match parseImports source with
  | .error e => .error (.imports e)
  | .ok imports =>
    match findCallSites source options.tag filename imports with
    | .error e =>
      if e.cause = .scan .endless then .error .endless
      else .ok { code := text, diagnostics := [parseDiagnostic filename e] }
    | .ok found =>
      let unreadable := found.filterMap fun
        | .error e => some (parseDiagnostic filename e)
        | .ok _ => none
      let finished := do
        let (processed, created) ← createAll t options filename (found.filterMap Except.toOption)
        let (points, e) := Evaluator.values.run (moduleBindings source processed)
        let (items, rules, built) ← finishAll mode points processed e
        return (items, rules, unreadable ++ created ++ built)
      match finished with
      | .error failure => .error (.site failure)
      | .ok (items, rules, diagnostics) =>
        .ok {
          code := String.ofList (splice 0 source (replacements items))
          rules := rules.foldl Entries.setAll []
          diagnostics
          dependencies := items.flatMap fun item => item.processor.dependencies.map (·.source)
          sites := items }

end CssExtract.Styled
