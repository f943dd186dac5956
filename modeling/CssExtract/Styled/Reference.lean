import CssExtract.Package.Mask
import CssExtract.Styled.Interpolation
import CssExtract.Styled.Options

namespace CssExtract.Styled

open Package

inductive Warning
  | unresolvedImport (specifier : String) (filename : Option String) (source : String)
  | invalidManifest (manifest fault source specifier : String)
deriving DecidableEq, Repr

def Warning.message : Warning → String
  | .unresolvedImport specifier filename source =>
    "Can't resolve " ++ specifier ++ " from " ++ filename.getD "None" ++ ". If " ++ source ++
      " is another styled component, it should be resolvable with default " ++
      "Node.js resolver. If it's not, please exclude it from the " ++
      "linaria.components mask in package.json."
  | .invalidManifest manifest fault source specifier =>
    "Can't read " ++ manifest ++ ": " ++ fault ++ ". " ++ source ++ " imported from " ++ specifier ++
      " is treated as a non-styled component."

def Warning.code : Warning → String
  | .unresolvedImport .. => "unresolved-import"
  | .invalidManifest .. => "invalid-manifest"

structure Importer where
  filename : Option String
  extensions : List String

abbrev Warned := ExceptT Failure (StateM (List Warning))

def warn (w : Warning) : Warned Unit := modify (· ++ [w])

def Failure.ofResolution : ResolutionError → Failure
  | .access fault => .access fault
  | _ => .invalidName

def liftResolution {α : Type} : Except ResolutionError α → Warned α
  | .ok a => return a
  | .error e => throw (.ofResolution e)

/-- The files that call sites are processed with, and the matcher of patterns for their paths. -/
structure Host extends Tree where
  globmatch : Glob.Matcher := Glob.globmatch

def Importer.ownManifest? (t : Tree) (i : Importer) : Warned (Option Path) :=
  match i.filename.filter (!·.isEmpty) with
  | some _ => liftResolution (findManifest? t "." i.filename [".js"])
  | none => return none

def Importer.directory (t : Tree) (i : Importer) : Path :=
  match i.filename.filter (!·.isEmpty) with
  | some name => (t.absolutePath name).parent
  | none => ⟨"/", t.workingDirectory⟩

def checkMask (t : Host) (file directory mask : String) : Warned Bool :=
  match matchesMask t.globmatch file directory mask with
  | .ok covered => return covered
  | .error fault => throw (.matching fault)

/-- Whether what a specifier leads to is styled: all of the own package is, unless it declares a
mask; of a package with a mask that is which the mask matches. -/
def isStyledImport (t : Host) (i : Importer) (own : Option Path) (source specifier : String) :
    Warned Bool := do
  let found ← liftResolution (findManifest? t.toTree specifier i.filename i.extensions)
  match found.or own with
  | none => return false
  | some manifest =>
    match readMask t.toTree manifest with
    | .error e =>
      warn (.invalidManifest manifest.toString e.message source specifier)
      return false
    | .ok none => return own = some manifest
    | .ok (some mask) =>
      if mask.isEmpty then return false
      match resolveModule t.toTree specifier (i.directory t.toTree) i.extensions with
      | .ok file => checkMask t file.toString manifest.parent.toString mask
      | .error (.notFound ..) =>
        warn (.unresolvedImport specifier i.filename source)
        return false
      | .error e => throw (.ofResolution e)

def anyStyled (t : Host) (i : Importer) (own : Option Path) (source : String) :
    List String → Warned Bool
  | [] => return false
  | specifier :: rest => do
    if ← isStyledImport t i own source specifier then return true
    else anyStyled t i own source rest

def isForeign (t : Host) (i : Importer) (source : String) (importedFrom : List String) :
    Warned Bool := do
  if importedFrom.isEmpty then return false
  return !(← anyStyled t i (← i.ownManifest? t.toTree) source importedFrom)

end CssExtract.Styled
