import CssExtract.Text.Cut

namespace CssExtract

open Text

structure Path where
  /-- Empty for a relative path, else one slash, or two when exactly two are written. -/
  anchor : String
  parts : List String
deriving DecidableEq, Repr, Inhabited

namespace Path

def ofChars (s : List Char) : Path :=
  let slashes := (s.takeWhile (· = '/')).length
  let anchor := if slashes = 0 then "" else if slashes = 2 then "//" else "/"
  ⟨anchor, ((splitOn '/' s).filter fun part => part ≠ [] && part ≠ ['.']).map String.ofList⟩

def ofString (s : String) : Path := ofChars s.toList

def toString (p : Path) : String :=
  if p.anchor.isEmpty && p.parts.isEmpty then "."
  else p.anchor ++ "/".intercalate p.parts

def isAbsolute (p : Path) : Bool := !p.anchor.isEmpty

def join (p q : Path) : Path := if q.isAbsolute then q else ⟨p.anchor, p.parts ++ q.parts⟩

def child (p : Path) (name : String) : Path := p.join (ofString name)

def name (p : Path) : String := p.parts.getLast?.getD ""

def parent (p : Path) : Path := ⟨p.anchor, p.parts.dropLast⟩

def ancestors (p : Path) : List Path :=
  (List.range (p.parts.length + 1)).map fun n => ⟨p.anchor, p.parts.take (p.parts.length - n)⟩

/-- Appends an extension to the last component, if there is one. What comes of it must still be a single
component; slashes in it may only be followed by points that stand for it, and it may not end in one. -/
def addExtension? (p : Path) (extension : String) : Option Path :=
  let further := (splitOn '/' extension.toList).tail
  match p.parts.getLast? with
  | none => none
  | some name =>
    if further.all (fun part => part = [] || part = ['.']) && further.getLast?.all (· = ['.']) then
      some ⟨p.anchor, p.parts.dropLast ++ [name ++ extension]⟩
    else none

def below? (p directory : Path) : Option Path :=
  if p.anchor = directory.anchor && directory.parts.isPrefixOf p.parts then
    some ⟨"", p.parts.drop directory.parts.length⟩
  else none

def push (anchored : Bool) (above : List String) (part : String) : List String :=
  if part ≠ ".." then part :: above
  else match above with
    | [] => if anchored then [] else [part]
    | last :: rest => if last = ".." then part :: last :: rest else rest

theorem foldl_push {anchored : Bool} {above parts : List String} (h : ".." ∉ parts) :
    parts.foldl (push anchored) above = parts.reverse ++ above := by
  induction parts generalizing above with
  | nil => rfl
  | cons part parts ih =>
      rw [List.mem_cons, not_or] at h
      simp [push, Ne.symm h.1, ih h.2]

def collapse (p : Path) : Path := ⟨p.anchor, (p.parts.foldl (push p.isAbsolute) []).reverse⟩

/-- Where a name's extension starts: at its last point, unless that is its first or its last
character. -/
def extensionStart? (name : List Char) : Option Nat :=
  let tail := (name.reverse.takeWhile (· ≠ '.')).length
  if tail = 0 || name.length ≤ tail + 1 then none else some (name.length - tail - 1)

def extension (p : Path) : String :=
  let name := p.name.toList
  match extensionStart? name with
  | some i => String.ofList (name.drop i)
  | none => ""

def stem (p : Path) : String :=
  let name := p.name.toList
  match extensionStart? name with
  | some i => String.ofList (name.take i)
  | none => p.name

def directoryOf (filename : String) : Path :=
  ofChars (filename.toList.reverse.dropWhile (· ≠ '/')).reverse

end Path

end CssExtract
