namespace CssExtract.Text

inductive Utf8Cause
  | invalidStart
  | invalidContinuation
  | truncated
deriving DecidableEq, Repr

structure Utf8Error where
  cause : Utf8Cause
  start : Nat
  stop : Nat
  byte : UInt8
deriving DecidableEq, Repr

def Utf8Cause.message : Utf8Cause → String
  | .invalidStart => "invalid start byte"
  | .invalidContinuation => "invalid continuation byte"
  | .truncated => "unexpected end of data"

def hexByte (b : UInt8) : String :=
  String.ofList ((Nat.toDigits 16 (256 + b.toNat)).drop 1)

def Utf8Error.message (e : Utf8Error) : String :=
  let place :=
    if e.stop = e.start + 1 then "byte 0x" ++ hexByte e.byte ++ " in position " ++ toString e.start
    else "bytes in position " ++ toString e.start ++ "-" ++ toString (e.stop - 1)
  "'utf-8' codec can't decode " ++ place ++ ": " ++ e.cause.message

/-- How a character starts: the number of bytes that go on with it, the bits it has so far, and
the bounds of its second byte, which keep out other forms of shorter characters, surrogates and
numbers that are too large. -/
structure Utf8Start where
  more : Nat
  bits : Nat
  low : Nat := 0x80
  high : Nat := 0xBF

def Utf8Start.ofByte? (b : UInt8) : Option Utf8Start :=
  let n := b.toNat
  if n < 0x80 then some { more := 0, bits := n }
  else if n < 0xC2 then none
  else if n < 0xE0 then some { more := 1, bits := n - 0xC0 }
  else if n = 0xE0 then some { more := 2, bits := 0, low := 0xA0 }
  else if n = 0xED then some { more := 2, bits := 13, high := 0x9F }
  else if n < 0xF0 then some { more := 2, bits := n - 0xE0 }
  else if n = 0xF0 then some { more := 3, bits := 0, low := 0x90 }
  else if n < 0xF4 then some { more := 3, bits := n - 0xF0 }
  else if n = 0xF4 then some { more := 3, bits := 4, high := 0x8F }
  else none

def continueUtf8 (start : Utf8Start) (seen : Nat) : List UInt8 → Except (Utf8Cause × Nat) Char
  | [] => if start.more = 0 then .ok (Char.ofNat start.bits) else .error (.truncated, seen)
  | b :: bytes =>
    match start.more with
    | 0 => .ok (Char.ofNat start.bits)
    | more + 1 =>
      if start.low ≤ b.toNat ∧ b.toNat ≤ start.high then
        continueUtf8 { more := more, bits := start.bits * 64 + (b.toNat - 0x80) } (seen + 1) bytes
      else .error (.invalidContinuation, seen)

def decodeFrom (i : Nat) : Nat → List UInt8 → Except Utf8Error (List Char)
  | _, [] => .ok []
  | pending + 1, _ :: bytes => decodeFrom (i + 1) pending bytes
  | 0, b :: bytes =>
    match Utf8Start.ofByte? b with
    | none => .error ⟨.invalidStart, i, i + 1, b⟩
    | some start =>
      match continueUtf8 start 0 bytes with
      | .error (cause, seen) => .error ⟨cause, i, i + 1 + seen, b⟩
      | .ok c => (decodeFrom (i + 1) start.more bytes).map (c :: ·)

def decodeUtf8 (bytes : List UInt8) : Except Utf8Error (List Char) := decodeFrom 0 0 bytes

def unifyNewlines : List Char → List Char
  | '\r' :: '\n' :: s => '\n' :: unifyNewlines s
  | '\r' :: s => '\n' :: unifyNewlines s
  | c :: s => c :: unifyNewlines s
  | [] => []

end CssExtract.Text
