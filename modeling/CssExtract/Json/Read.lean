import CssExtract.Eval.Value
import CssExtract.Script.Literal
import CssExtract.Text.Position

namespace CssExtract.Json

open Eval

inductive ReadCause
  | byteOrderMark
  | expectingValue
  | extraData
  | expectingName
  | expectingColon
  | expectingComma
  | unterminatedString
  | controlCharacter
  | invalidEscape
  | invalidCode
  | longInteger (digits : Nat)
deriving DecidableEq, Repr

def maxIntegerDigits : Nat := 4300

structure ReadError where
  cause : ReadCause
  offset : Nat
deriving DecidableEq, Repr

def ReadCause.message : ReadCause → String
  | .byteOrderMark => "Unexpected UTF-8 BOM (decode using utf-8-sig)"
  | .expectingValue => "Expecting value"
  | .extraData => "Extra data"
  | .expectingName => "Expecting property name enclosed in double quotes"
  | .expectingColon => "Expecting ':' delimiter"
  | .expectingComma => "Expecting ',' delimiter"
  | .unterminatedString => "Unterminated string starting at"
  | .controlCharacter => "Invalid control character at"
  | .invalidEscape => "Invalid \\escape"
  | .invalidCode => "Invalid \\uXXXX escape"
  | .longInteger digits =>
    "Exceeds the limit (" ++ toString maxIntegerDigits ++ " digits) for integer string conversion: value has " ++
      toString digits ++ " digits; use sys.set_int_max_str_digits() to increase the limit"

def ReadCause.hasPlace : ReadCause → Bool
  | .longInteger _ => false
  | _ => true

def ReadError.message (s : List Char) (e : ReadError) : String :=
  let pos := Text.position s e.offset
  if e.cause.hasPlace then
    e.cause.message ++ ": line " ++ toString pos.line ++ " column " ++ toString (pos.column + 1) ++
      " (char " ++ toString e.offset ++ ")"
  else e.cause.message

structure Cursor where
  offset : Nat
  rest : List Char

def Cursor.advance (p : Cursor) (n : Nat) : Cursor := ⟨p.offset + n, p.rest.drop n⟩

def Cursor.fail {α : Type} (p : Cursor) (cause : ReadCause) : Except ReadError α := .error ⟨cause, p.offset⟩

def isGap (c : Char) : Bool := c = ' ' || c = '\t' || c = '\n' || c = '\r'

def Cursor.skipGap (p : Cursor) : Cursor := p.advance (p.rest.takeWhile isGap).length

def hexValue? (c : Char) : Option Nat :=
  if '0' ≤ c && c ≤ '9' then some (c.toNat - 48)
  else if 'a' ≤ c && c ≤ 'f' then some (c.toNat - 87)
  else if 'A' ≤ c && c ≤ 'F' then some (c.toNat - 55)
  else none

def readCode (p : Cursor) : Except ReadError Nat :=
  if p.rest.length ≤ 5 then p.fail .invalidCode
  else match ((p.rest.drop 1).take 4).mapM hexValue? with
    | some ds => .ok (ds.foldl (fun n d => 16 * n + d) 0)
    | none => p.fail .invalidCode

def simpleEscape? (c : Char) : Option Char :=
  [('"', '"'), ('\\', '\\'), ('/', '/'), ('b', '\x08'), ('f', '\x0c'), ('n', '\n'), ('r', '\r'),
    ('t', '\t')].lookup c

def readCodes (p : Cursor) : Except ReadError (Char × Nat) := do
  let code ← readCode p
  if 0xD800 ≤ code && code < 0xDC00 then
    let next := p.advance 5
    match next.rest with
    | '\\' :: 'u' :: _ =>
      if 6 < next.rest.length then
        let low ← readCode (next.advance 1)
        if 0xDC00 ≤ low && low < 0xE000 then
          return (Char.ofNat (0x10000 + (code - 0xD800) * 0x400 + (low - 0xDC00)), 11)
      return ('\uFFFD', 5)
    | _ => return ('\uFFFD', 5)
  else if 0xDC00 ≤ code && code < 0xE000 then return ('\uFFFD', 5)
  else return (Char.ofNat code, 5)

/-- Reads the rest of the string that starts at `start`; the next `pending` characters are
already read. -/
def readStringFrom (start i : Nat) : Nat → List Char → Except ReadError (List Char × Nat)
  | _, [] => .error ⟨.unterminatedString, start⟩
  | pending + 1, _ :: s => readStringFrom start (i + 1) pending s
  | 0, c :: s =>
    if c = '"' then .ok ([], i + 1)
    else if c = '\\' then
      match s with
      | [] => .error ⟨.unterminatedString, start⟩
      | e :: _ =>
        if e = 'u' then do
          let (c, width) ← readCodes ⟨i + 1, s⟩
          (readStringFrom start (i + 1) width s).map fun (cs, stop) => (c :: cs, stop)
        else match simpleEscape? e with
          | some c => (readStringFrom start (i + 1) 1 s).map fun (cs, stop) => (c :: cs, stop)
          | none => .error ⟨.invalidEscape, i⟩
    else if c.toNat < 32 then .error ⟨.controlCharacter, i⟩
    else (readStringFrom start (i + 1) 0 s).map fun (cs, stop) => (c :: cs, stop)
termination_by structural _ s => s

def readString (p : Cursor) : Except ReadError (String × Cursor) := do
  let (cs, stop) ← readStringFrom p.offset (p.offset + 1) 0 (p.rest.drop 1)
  return (String.ofList cs, p.advance (stop - p.offset))

def digitRun (s : List Char) : Nat := (s.takeWhile Char.isDigit).length

/-- The number at the front of a text and its length. A fraction or an exponent without digits
is no part of it, nor is a digit after a leading zero. -/
def readNumber? (s : List Char) : Option (Number × Nat) :=
  let sign := if s.head? = some '-' then 1 else 0
  let whole := match s.drop sign with
    | '0' :: _ => 1
    | s => digitRun s
  if whole = 0 then none
  else
    let width := sign + whole
    let fraction := match s.drop width with
      | '.' :: s => if digitRun s = 0 then 0 else 1 + digitRun s
      | _ => 0
    let exponent := Script.exponentLength ((s.drop (width + fraction)).takeWhile (·.toNat < 128))
    let literal := s.take (width + fraction + exponent)
    if fraction + exponent = 0 then
      let magnitude : Int := (Script.readDecimal literal).digits
      some (.int (if sign = 1 then -magnitude else magnitude), width)
    else some (.float (Script.readFloat literal), width + fraction + exponent)

def longDigits? (s : List Char) (width : Nat) : Number → Option Nat
  | .int _ =>
    let digits := if s.head? = some '-' then width - 1 else width
    if maxIntegerDigits < digits then some digits else none
  | .float _ => none

def keyword? (s : List Char) : Option (Value × Nat) :=
  [("null", Value.null), ("true", .bool true), ("false", .bool false),
    ("NaN", .number (.float (0.0 / 0.0))), ("Infinity", .number (.float (1.0 / 0.0))),
    ("-Infinity", .number (.float (-1.0 / 0.0)))].findSome? fun (word, value) =>
      if word.toList.isPrefixOf s then some (value, word.length) else none

mutual

def readValue : Nat → Cursor → Except ReadError (Value × Cursor)
  | 0, p => p.fail .expectingValue
  | depth + 1, p =>
    match p.rest with
    | '"' :: _ => do
      let (s, p) ← readString p
      return (.string s, p)
    | '{' :: _ =>
      let inside := (p.advance 1).skipGap
      if inside.rest.head? = some '}' then .ok (.object [], inside.advance 1)
      else readEntries depth [] inside
    | '[' :: _ =>
      let inside := (p.advance 1).skipGap
      if inside.rest.head? = some ']' then .ok (.array [], inside.advance 1)
      else readItems depth [] inside
    | s =>
      match keyword? s, readNumber? s with
      | some (value, width), _ => .ok (value, p.advance width)
      | none, some (n, width) =>
        match longDigits? s width n with
        | some digits => p.fail (.longInteger digits)
        | none => .ok (.number n, p.advance width)
      | none, none => p.fail .expectingValue

def readItems : Nat → List Value → Cursor → Except ReadError (Value × Cursor)
  | 0, _, p => p.fail .expectingValue
  | depth + 1, items, p => do
    let (item, p) ← readValue depth p
    let items := items ++ [item]
    let p := p.skipGap
    match p.rest.head? with
    | some ']' => return (.array items, p.advance 1)
    | some ',' => readItems depth items (p.advance 1).skipGap
    | _ => p.fail .expectingComma

def readEntries : Nat → Entries Value → Cursor → Except ReadError (Value × Cursor)
  | 0, _, p => p.fail .expectingName
  | depth + 1, entries, p => do
    if p.rest.head? ≠ some '"' then p.fail .expectingName
    let (name, p) ← readString p
    let p := p.skipGap
    if p.rest.head? ≠ some ':' then p.fail .expectingColon
    let (value, p) ← readValue depth (p.advance 1).skipGap
    let entries := Entries.set name value entries
    let p := p.skipGap
    match p.rest.head? with
    | some '}' => return (.object entries, p.advance 1)
    | some ',' => readEntries depth entries (p.advance 1).skipGap
    | _ => p.fail .expectingComma

end

/-- Reads a document. Each level of nesting and each item takes a character, so its length
bounds the depth. -/
def read (s : List Char) : Except ReadError Value := do
  if s.head? = some '\uFEFF' then .error ⟨.byteOrderMark, 0⟩
  let (value, p) ← readValue (2 * s.length + 2) (Cursor.mk 0 s).skipGap
  let p := p.skipGap
  if p.rest.isEmpty then return value else p.fail .extraData

end CssExtract.Json
