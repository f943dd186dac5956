import CssExtract.Script.Template
import CssExtract.Text.Word

namespace CssExtract.Script

open Text

structure RawSite where
  span : Span
  head : String
  template : Option RawTemplate
deriving DecidableEq, Repr

def comment? (i : Nat) (c : Char) (cs : List Char) : Option (Except ScanError Nat) :=
  match opens? i c cs.head? with
  | some (_, .lineComment) => some (skip (i + 2) [.lineComment] cs.tail)
  | some (_, .blockComment start) => some (skip (i + 2) [.blockComment start] cs.tail)
  | _ => none

def skipBlanksFrom (i : Nat) : Nat → List Char → Except ScanError Nat
  | _, [] => .ok i
  | pending + 1, _ :: cs => skipBlanksFrom (i + 1) pending cs
  | 0, c :: cs =>
    if isBlank c then skipBlanksFrom (i + 1) 0 cs
    else match comment? i c cs with
      | some stop => do skipBlanksFrom (i + 1) ((← stop) - (i + 1)) cs
      | none => .ok i
termination_by structural _ s => s

def skipBlanks (s : List Char) (i : Nat) : Except ScanError Nat := skipBlanksFrom i 0 (s.drop i)

structure HeadExtent where
  ops : Nat
  endsInCall : Bool
  stop : Nat

/-- Reads member accesses and calls from offset `i` on, of which the next `pending` characters
are already read, and tells where a template literal follows, if one does. -/
def readHead (i : Nat) (head : HeadExtent) : Nat → List Char → Except ScanError (HeadExtent × Option Nat)
  | _, [] => .ok (head, none)
  | pending + 1, _ :: cs => readHead (i + 1) head pending cs
  | 0, c :: cs =>
    if isBlank c then readHead (i + 1) head 0 cs
    else match comment? i c cs with
      | some stop => do readHead (i + 1) head ((← stop) - (i + 1)) cs
      | none =>
        if c = '`' then .ok (head, some i)
        else if c = '.' then do
          let name ← skipBlanksFrom (i + 1) 0 cs
          match nameLength? isAsciiNamePart (cs.drop (name - (i + 1))) with
          | some length =>
            readHead (i + 1) ⟨head.ops + 1, false, name + length⟩ (name + length - (i + 1)) cs
          | none => .ok (head, none)
        else if c = '(' then do
          let stop ← skip (i + 1) [.group ')'] cs
          readHead (i + 1) ⟨head.ops + 1, true, stop⟩ (stop - (i + 1)) cs
        else .ok (head, none)
termination_by structural _ s => s

def readSite? (s : List Char) (start tagLength : Nat) : Except ScanError (Option RawSite) := do
  let i := start + tagLength
  let (head, backtick) ← readHead i ⟨0, false, i⟩ 0 (s.drop i)
  let text := String.ofList (slice s ⟨start, head.stop⟩)
  match backtick with
  | some j =>
    let template ← readTemplate s j
    .ok (some ⟨⟨start, template.span.stop⟩, text, some template⟩)
  | none =>
    .ok (if 2 ≤ head.ops && head.endsInCall then some ⟨⟨start, head.stop⟩, text, none⟩ else none)

def startsTag (tag : List Char) (previous : Option Char) (s : List Char) : Bool :=
  tag.isPrefixOf s &&
    !(previous.any fun c => isNamePart c || c = '.') &&
    !((s.drop tag.length).head?.any isNamePart)

/-- The sites from offset `i` of `source` on, where the next `pending` characters are already
read. -/
def sitesFrom (source tag : List Char) (i : Nat) (previous : Option Char) :
    Nat → List Char → Except ScanError (List RawSite)
  | _, [] => .ok []
  | pending + 1, c :: cs => sitesFrom source tag (i + 1) (some c) pending cs
  | 0, c :: cs =>
    match opens? i c cs.head? with
    | some (width, frame) => do
      let stop ← skip (i + width) [frame] (cs.drop (width - 1))
      sitesFrom source tag (i + 1) (some c) (stop - (i + 1)) cs
    | none =>
      if startsTag tag previous (c :: cs) then do
        match ← readSite? source i tag.length with
        | some site =>
          let rest ← sitesFrom source tag (i + 1) (some c) (site.span.stop - (i + 1)) cs
          .ok (site :: rest)
        | none =>
          if tag.isEmpty then .error ⟨.endless, i⟩
          else sitesFrom source tag (i + 1) (some c) (tag.length - 1) cs
      else sitesFrom source tag (i + 1) (some c) 0 cs
termination_by structural _ s => s

def findSites (source tag : List Char) : Except ScanError (List RawSite) :=
  sitesFrom source tag 0 none 0 source

end CssExtract.Script
