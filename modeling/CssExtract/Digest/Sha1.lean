namespace CssExtract.Digest

structure State where
  a : UInt32
  b : UInt32
  c : UInt32
  d : UInt32
  e : UInt32
deriving DecidableEq, Repr

def State.initial : State := ⟨0x67452301, 0xEFCDAB89, 0x98BADCFE, 0x10325476, 0xC3D2E1F0⟩

def State.add (s t : State) : State := ⟨s.a + t.a, s.b + t.b, s.c + t.c, s.d + t.d, s.e + t.e⟩

def rotate (x : UInt32) (n : UInt32) : UInt32 := (x <<< n) ||| (x >>> (32 - n))

def bigEndian : Nat → Nat → List UInt8
  | 0, _ => []
  | width + 1, n => UInt8.ofNat (n >>> (8 * width)) :: bigEndian width n

/-- The message, a one bit, zeros up to a multiple of 64 bytes, and the length in bits. -/
def pad (message : List UInt8) : List UInt8 :=
  message ++ 0x80 :: List.replicate ((119 - message.length % 64) % 64) 0 ++
    bigEndian 8 (8 * message.length)

def word (bytes : List UInt8) : UInt32 := bytes.foldl (fun w b => (w <<< 8) ||| b.toUInt32) 0

def pieces {α : Type} (size : Nat) : Nat → List α → List (List α)
  | 0, _ => []
  | count + 1, xs => xs.take size :: pieces size count (xs.drop size)

def extendSchedule : Nat → List UInt32 → List UInt32
  | 0, ws => ws
  | n + 1, ws =>
    extendSchedule n (rotate (ws.getD 2 0 ^^^ ws.getD 7 0 ^^^ ws.getD 13 0 ^^^ ws.getD 15 0) 1 :: ws)

def roundFunction (t : Nat) (b c d : UInt32) : UInt32 :=
  if t < 20 then ((b &&& c) ||| (~~~b &&& d)) + 0x5A827999
  else if t < 40 then (b ^^^ c ^^^ d) + 0x6ED9EBA1
  else if t < 60 then ((b &&& c) ||| (b &&& d) ||| (c &&& d)) + 0x8F1BBCDC
  else (b ^^^ c ^^^ d) + 0xCA62C1D6

def State.step (s : State) (w : UInt32) (t : Nat) : State :=
  ⟨rotate s.a 5 + roundFunction t s.b s.c s.d + s.e + w, s.a, rotate s.b 30, s.c, s.d⟩

def State.block (s : State) (bytes : List UInt8) : State :=
  let schedule := (extendSchedule 64 ((pieces 4 16 bytes).map word).reverse).reverse
  s.add (schedule.zipIdx.foldl (fun s (w, t) => s.step w t) s)

def sha1 (message : List UInt8) : State :=
  let padded := pad message
  (pieces 64 (padded.length / 64) padded).foldl State.block .initial

def State.bits (s : State) : BitVec 160 :=
  s.a.toBitVec ++ (s.b.toBitVec ++ (s.c.toBitVec ++ (s.d.toBitVec ++ s.e.toBitVec)))

def leading (message : List UInt8) : Nat := (sha1 message).a.toNat

end CssExtract.Digest
