import CssExtract.Files.Path
import CssExtract.Text.Utf8

namespace CssExtract

inductive Entry
  | file (content : List UInt8)
  | directory
  | link (target : String)

abbrev Place := List String

/-- Why the system tells nothing about a path: it is too long or leads through a directory that may not be
searched, or its links lead in a circle. -/
inductive Refusal
  | denied
  | circle
deriving DecidableEq, Repr

structure Access where
  refusal? : Path → Option Refusal := fun _ => none
  /-- The places where a link is not seen by a lookup that is refused or finds nothing. -/
  hides : Place → Bool := fun _ => false
  withheld? : Path → Option String := fun _ => none
deriving Inhabited

/-- The directories above an entry, and the working directory, are there without being listed. -/
structure Tree where
  entries : List (Place × Entry) := []
  workingDirectory : Place := []
  access : Access := {}
deriving Inhabited

namespace Tree

variable (t : Tree)

def at? (place : Place) : Option Entry :=
  match t.entries.find? (·.1 = place) with
  | some (_, entry) => some entry
  | none =>
    if place.isPrefixOf t.workingDirectory || t.entries.any (place.isPrefixOf ·.1) then
      some .directory
    else none

def absolute (p : Path) : List String :=
  if p.isAbsolute then p.parts else t.workingDirectory ++ p.parts

def linkBase (here : Place) (target : Path) : Place := if target.isAbsolute then [] else here

/-- Walks components from the directory `here`; `follow` walks on from a directory when a link
has been put in the place of its target. -/
def walkParts (follow : Place → List String → Option (Place × Entry)) (here : Place) :
    List String → Option (Place × Entry)
  | [] => (t.at? here).map (here, ·)
  | part :: rest =>
    if part = ".." then walkParts follow here.dropLast rest
    else match t.at? (here ++ [part]) with
      | none => none
      | some .directory => walkParts follow (here ++ [part]) rest
      | some (.file content) => if rest.isEmpty then some (here ++ [part], .file content) else none
      | some (.link target) =>
        let target := Path.ofString target
        follow (linkBase here target) (target.parts ++ rest)

def walk : Nat → Place → List String → Option (Place × Entry)
  | 0 => t.walkParts fun _ _ => none
  | links + 1 => t.walkParts (walk links)

def maxLinks : Nat := 40

def find? (p : Path) : Option (Place × Entry) := t.walk maxLinks [] (t.absolute p)

inductive Fault
  | denied
  | circle
  | nullCharacter
deriving DecidableEq, Repr

def holdsFile (p : Path) : Bool :=
  match t.find? p with
  | some (_, .file _) => true
  | _ => false

def holdsDirectory (p : Path) : Bool :=
  match t.find? p with
  | some (_, .directory) => true
  | _ => false

def answered {α : Type} (p : Path) (a : α) : Except Fault α :=
  if t.access.refusal? p = some .denied then .error .denied else .ok a

def isFile (p : Path) : Except Fault Bool := t.answered p (t.holdsFile p)

def isDirectory (p : Path) : Except Fault Bool := t.answered p (t.holdsDirectory p)

def named? (path : String) : Option Entry :=
  let mustBeDirectory := ["/", "/."].any fun stop => stop.toList.isSuffixOf path.toList
  if path.isEmpty then none
  else match t.find? (Path.ofString path) with
    | some (_, .file content) => if mustBeDirectory then none else some (.file content)
    | found => found.map (·.2)

def linkAt? (hides : Place → Bool) (place : Place) : Option String :=
  if hides place then none
  else match t.at? place with
    | some (.link target) => some target
    | _ => none

/-- Follows the links on a path and takes `..` back; `follow` gives the place a link at a place
leads to, or else the place where following it got stuck. Missing parts stay as they are. -/
def resolveParts (hides : Place → Bool) (follow : Place → Path → Except Place Place) (here : Place) :
    List String → Except Place Place
  | [] => .ok here
  | part :: rest =>
    if part = ".." then resolveParts hides follow here.dropLast rest
    else match t.linkAt? hides (here ++ [part]) with
      | some target =>
        match follow (here ++ [part]) (Path.ofString target) with
        | .ok place => resolveParts hides follow place rest
        | .error stuck => .error (stuck ++ rest)
      | none => resolveParts hides follow (here ++ [part]) rest

def followLink (hides : Place → Bool) : Nat → List Place → Place → Path → Except Place Place
  | 0, _, link, _ => .error link
  | depth + 1, seen, link, target =>
    if link ∈ seen then .error link
    else
      t.resolveParts hides (followLink hides depth (link :: seen)) (linkBase link.dropLast target)
        target.parts

/-- The absolute path of what a path leads to, without `..` and without the links that are seen. -/
def realPath (hides : Place → Bool) (p : Path) : Path :=
  match t.resolveParts hides (t.followLink hides (t.entries.length + 1) []) [] (t.absolute p) with
  | .ok place => ⟨"/", place⟩
  | .error stuck => Path.collapse ⟨"/", stuck⟩

/-- All links are seen on a path about which the system answers. -/
def hidden (p : Path) : Place → Bool :=
  if (t.find? p).isSome && t.access.refusal? p ≠ some .denied then fun _ => false else t.access.hides

def resolve (p : Path) : Except Fault Path :=
  let place := t.realPath (t.hidden p) p
  if (t.find? p).isSome then .ok place
  else if p.parts.any (·.toList.contains '\x00') then .error .nullCharacter
  else if t.access.refusal? place = some .circle then .error .circle
  else .ok place

def absolutePath (filename : String) : Path :=
  (Path.join ⟨"/", t.workingDirectory⟩ (Path.ofString filename)).collapse

inductive ReadFault
  | missing
  | isDirectory
  | encoding (error : Text.Utf8Error)
  | withheld (reason : String)

def readText (p : Path) : Except ReadFault (List Char) :=
  match t.access.withheld? p, t.find? p with
  | some reason, _ => .error (.withheld reason)
  | none, some (_, .file content) =>
    match Text.decodeUtf8 content with
    | .ok s => .ok (Text.unifyNewlines s)
    | .error e => .error (.encoding e)
  | none, some _ => .error .isDirectory
  | none, none => .error .missing

inductive WriteFault
  | missingDirectory
  | notDirectory
  | isDirectory
deriving DecidableEq, Repr

def checkDirectory (p : Path) : Except WriteFault Unit :=
  if t.holdsDirectory p then .ok ()
  else if p.ancestors.any t.holdsFile then .error .notDirectory
  else .error .missingDirectory

def writePlace (p : Path) : Except WriteFault Path := do
  match t.find? p with
  | some (place, .file _) => return ⟨"/", place⟩
  | some _ => .error .isDirectory
  | none =>
    t.checkDirectory p.parent
    let target := t.realPath (t.hidden p) p
    t.checkDirectory target.parent
    return target

end Tree

end CssExtract
