import CssExtract.Command.Line
import CssExtract.Styled.Extraction

namespace CssExtract.Command

open Styled

/-- What has been printed and written; files stand under their absolute paths. -/
structure Output where
  stdout : String := ""
  stderr : String := ""
  files : Entries String := []
deriving DecidableEq, Repr

inductive Fault
  | settings (error : SettingsError)
  | unreadable (fault : Tree.ReadFault)
  | access (fault : Tree.Fault)
  | extraction (error : ExtractionError)
  | unwritable (fault : Tree.WriteFault)

inductive Stop
  | complete
  | usage (error : LineError)
  | badSettings
  | siteErrors
  | fault (fault : Fault)

def Stop.exitCode : Stop → UInt8
  | .complete => 0
  | .usage _ | .badSettings => 2
  | .siteErrors | .fault _ => 1

def Fault.message : Fault → String
  | .settings e => "Unusable settings: " ++ e.message
  | .unreadable _ | .access _ => "The source file cannot be read"
  | .extraction (.imports _) => "The imports of the source file cannot be read"
  | .extraction (.site _) => "A call site cannot be processed"
  | .extraction .endless => "The call sites cannot be found"
  | .unwritable .missingDirectory => "There is no directory for an output file"
  | .unwritable .notDirectory => "An output file would be inside another file"
  | .unwritable .isDirectory => "An output file has the name of a directory"

def Stop.message? : Stop → Option String
  | .usage e => some ("Error: " ++ e.message)
  | .fault f => some ("Error: " ++ f.message)
  | .complete | .badSettings | .siteErrors => none

abbrev Run := ExceptT Stop (StateM Output)

def print (s : String) : Run Unit := modify fun o => { o with stdout := o.stdout ++ s }

def printLine (s : String) : Run Unit := print (s ++ "\n")

def report (s : String) : Run Unit := modify fun o => { o with stderr := o.stderr ++ s ++ "\n" }

def usage {α : Type} (e : LineError) : Run α := throw (.usage e)

def orFault {ε α : Type} (fault : ε → Fault) : Except ε α → Run α
  | .ok a => return a
  | .error e => throw (.fault (fault e))

structure Request where
  help : Bool := false
  mode : String := Mode.runtime.name
  showCss : Bool := false
  output : Option String := none
  cssOutput : Option String := none
  config : Option String := none
  root : Option String := none

def helpSwitch : Switch Request := { name := "--help", action := .flag fun r => { r with help := true } }

def projectSwitches : List (Switch Request) := [
    { name := "--config", action := .value fun v r => { r with config := some v } },
    { name := "--root", action := .value fun v r => { r with root := some v } },
    helpSwitch
  ]

def buildSwitches : List (Switch Request) := [
    { name := "--mode", action := .value fun v r => { r with mode := v } },
    { name := "--css", action := .flag fun r => { r with showCss := true } },
    { name := "--no-css", action := .flag fun r => { r with showCss := false } },
    { name := "--output", letter := some 'o', action := .value fun v r => { r with output := some v } },
    { name := "--css-output", action := .value fun v r => { r with cssOutput := some v } }
  ] ++ projectSwitches

def isDirectory (t : Tree) (path : String) : Bool := t.named? path matches some .directory

def isFile (t : Tree) (path : String) : Bool := t.named? path matches some (.file _)

def require (option : String) (value : Option String) (passes : String → Bool) : Run Unit := do
  if let some value := value then
    unless passes value do usage (.badValue option value)

def readRequest (t : Tree) (switches : List (Switch Request)) (words : List String) :
    Run (Request × String) := do
  match readLine switches true {} words with
  | .error e => usage e
  | .ok (request, arguments) =>
    if request.help then
      printLine "Usage: styledpass COMMAND [OPTIONS] SOURCE_FILE"
      throw .complete
    require "--output" request.output (!isDirectory t ·)
    require "--css-output" request.cssOutput (!isDirectory t ·)
    require "--config" request.config (isFile t ·)
    require "--root" request.root (!isFile t ·)
    match arguments with
    | [] => usage .missingArgument
    | [source] =>
      require "SOURCE_FILE" (some source) (isFile t ·)
      return (request, source)
    | _ :: extra :: _ => usage (.extraArgument extra)

def loadSettings (t : Tree) (request : Request) : Run Settings := do
  let settings ← match request.config with
    | none => pure {}
    | some path =>
      match Settings.load t path with
      | .ok settings => pure settings
      | .error .notIterable => throw (.fault (.settings .notIterable))
      | .error e =>
        report ("Config error: " ++ e.message)
        throw .badSettings
  match request.root with
  | some root => return { settings with root := .string root }
  | none => return settings

def extractFile (t : Tree) (request : Request) (mode : Mode) (source : String) :
    Run (Path × Extraction) := do
  let settings ← loadSettings t request
  let path ← orFault .access (t.resolve (Path.ofString source))
  let text ← orFault .unreadable (t.readText path)
  let options ← orFault .settings (settings.options .default .default)
  let e ← orFault .extraction
    (extract { toTree := t } options mode (some path.toString) (String.ofList text))
  return (path, e)

def write (t : Tree) (path text : String) : Run Unit := do
  let place ← orFault .unwritable (t.writePlace (Path.ofString path))
  modify fun o => { o with files := o.files.set place.toString text }

def reportAll (diagnostics : List Diagnostic) : Run Unit :=
  diagnostics.forM fun d => do
    report d.render
    if let some fix := d.fix then report ("  fix: " ++ fix)

def finish (e : Extraction) : Run Unit := do
  reportAll e.diagnostics
  if e.hasErrors then throw .siteErrors

def build (t : Tree) (words : List String) : Run Unit := do
  let (request, source) ← readRequest t buildSwitches words
  match Mode.ofName? request.mode with
  | none => usage (.badValue "--mode" request.mode)
  | some mode =>
    let (_, e) ← extractFile t request mode source
    match request.output.filter (!·.isEmpty) with
    | some path => write t path e.code
    | none => print e.code
    match request.cssOutput.filter (!·.isEmpty) with
    | some path => write t path (e.css ++ "\n")
    | none =>
      if request.showCss && !e.rules.isEmpty then
        printLine ""
        printLine e.css
    finish e

def siteLines (item : ProcessedSite) : List String :=
  let p := item.processor
  let start := item.site.loc.start
  let variableLine (i : Interpolation) :=
    "      --" ++ i.id ++ ": " ++ i.source ++ (if i.unit.isEmpty then "" else " unit=" ++ i.unit)
  ("  " ++ toString start.line ++ ":" ++ toString start.column ++ "  " ++ p.title) ::
    ("    name=" ++ p.displayName ++ "  class=" ++ p.className ++ "  slug=" ++ p.slug ++
      "  wraps=" ++ p.component.describe) ::
    p.interpolations.map variableLine

def inspect (t : Tree) (words : List String) : Run Unit := do
  let (request, source) ← readRequest t projectSwitches words
  let (path, e) ← extractFile t request .runtime source
  printLine ("File:  " ++ path.name)
  printLine ("Sites: " ++ toString e.sites.length)
  printLine ""
  (e.sites.flatMap siteLines).forM printLine
  unless e.dependencies.isEmpty do
    printLine ""
    printLine ("Dependencies: " ++ ", ".intercalate e.dependencies)
  finish e

structure Preamble where
  help : Bool := false
  version : Bool := false

def preambleSwitches : List (Switch Preamble) := [
    { name := "--version", action := .flag fun p => { p with version := true } },
    { name := "--verbose", letter := some 'v', action := .flag id },
    { name := "--help", action := .flag fun p => { p with help := true } }
  ]

def version : String := "0.1.0"

def dispatch (t : Tree) (words : List String) : Run Unit := do
  match readLine preambleSwitches false {} words with
  | .error e => usage e
  | .ok (preamble, words) =>
    if preamble.version then printLine ("styledpass, version " ++ version)
    else if preamble.help then printLine "Usage: styledpass [OPTIONS] COMMAND [ARGS]..."
    else match words with
      | "build" :: words => build t words
      | "inspect" :: words => inspect t words
      | name :: _ => usage (.unknownCommand name)
      | [] => usage .missingCommand

def run (t : Tree) (words : List String) : Stop × Output :=
  match (dispatch t words).run.run {} with
  | (.ok (), output) => (.complete, output)
  | (.error stop, output) => (stop, output)

end CssExtract.Command
