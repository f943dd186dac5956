import CssExtract.Package.Resolution

namespace CssExtract.Package

variable (t : Tree)

def findUp? (start : Path) (name : String) : Except Tree.Fault (Option Path) := do
  let place ← t.resolve start
  let directory := if ← t.isDirectory place then place else place.parent
  (directory.ancestors.map (·.child name)).findM? t.isFile

def importBase (filename : Option String) : Path :=
  match filename with
  | some name => if name.isEmpty then ⟨"", []⟩ else Path.directoryOf name
  | none => ⟨"", []⟩

/-- The manifest that owns the module of a specifier, where `.` is the importing file itself. -/
def findManifest? (specifier : String) (filename : Option String) (extensions : List String) :
    Except ResolutionError (Option Path) :=
  let ownFile := (filename.filter (!·.isEmpty)).filter fun _ => specifier = "."
  match ownFile with
  | some name => (findUp? t (t.absolutePath name) manifestName).mapError .access
  | none =>
    match resolveModule t specifier (importBase filename) extensions with
    | .ok found => (findUp? t found manifestName).mapError .access
    | .error (.notFound ..) => .ok none
    | .error e => .error e

inductive ManifestError
  | unreadable (fault : Tree.ReadFault)
  | invalid (text : List Char) (error : Json.ReadError)

def ManifestError.message : ManifestError → String
  | .unreadable .missing => "No such file or directory"
  | .unreadable .isDirectory => "Is a directory"
  | .unreadable (.encoding e) => e.message
  | .unreadable (.withheld reason) => reason
  | .invalid text error => error.message text

def readMask (manifest : Path) : Except ManifestError (Option String) :=
  match t.readText manifest with
  | .error fault => .error (.unreadable fault)
  | .ok text =>
    match Json.read text with
    | .error e => .error (.invalid text e)
    | .ok (.object document) =>
      match Entries.get? "linaria" document with
      | some (.object settings) =>
        match Entries.get? "components" settings with
        | some (.scalar (.string mask)) => .ok (some mask)
        | _ => .ok none
      | _ => .ok none
    | .ok _ => .ok none

end CssExtract.Package
