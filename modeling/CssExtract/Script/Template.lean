import CssExtract.Script.Skip
import CssExtract.Text.Blank
import CssExtract.Text.Position

namespace CssExtract.Script

open Text

structure RawHole where
  source : String
  span : Span
  text : String
deriving DecidableEq, Repr

structure RawTemplate where
  span : Span
  first : String
  holes : List RawHole
deriving DecidableEq, Repr

/-- What follows a place inside a template literal: the rest of the literal text there, the
holes after it and the offset after the closing backtick. -/
structure Pieces where
  text : List Char
  holes : List RawHole
  stop : Nat

def Pieces.addText (cs : List Char) (p : Pieces) : Pieces := { p with text := cs ++ p.text }

def readPieces (start i : Nat) : Nat → List Char → Except ScanError Pieces
  | _, [] => .error ⟨.unterminatedTemplate, start⟩
  | pending + 1, _ :: cs => readPieces start (i + 1) pending cs
  | 0, '\\' :: cs =>
    match cs with
    | [] => .error ⟨.unterminatedTemplate, start⟩
    | c :: cs => (readPieces start (i + 2) 0 cs).map (·.addText ['\\', c])
  | 0, c :: cs =>
    if c = '`' then .ok ⟨[], [], i + 1⟩
    else if c = '$' && cs.head? = some '{' then do
      let stop ← skip (i + 2) [.group '}'] cs.tail
      let source := cs.tail.take (stop - 1 - (i + 2))
      let rest ← readPieces start (i + 1) (stop - (i + 1)) cs
      .ok ⟨[], ⟨String.ofList (trim source), ⟨i + 2, stop - 1⟩, String.ofList rest.text⟩ :: rest.holes,
        rest.stop⟩
    else (readPieces start (i + 1) 0 cs).map (·.addText [c])
termination_by structural _ s => s

def readTemplate (s : List Char) (i : Nat) : Except ScanError RawTemplate := do
  let p ← readPieces i (i + 1) 0 (s.drop (i + 1))
  .ok ⟨⟨i, p.stop⟩, String.ofList p.text, p.holes⟩

end CssExtract.Script
