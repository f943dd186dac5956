namespace CssExtract

structure Decimal where
  digits : Nat
  exponent : Int
deriving DecidableEq, Repr

namespace Decimal

def width (n : Nat) : Nat := if n = 0 then 0 else (Nat.toDigits 10 n).length

def toFloat (d : Decimal) : Float :=
  let leading := d.exponent + width d.digits
  if d.digits = 0 || leading < -400 then 0.0
  else if leading > 400 then 1.0 / 0.0
  else Float.ofScientific d.digits (decide (d.exponent < 0)) d.exponent.natAbs

end Decimal

def powerOf (base : Nat) (exponent : Int) : Nat := Nat.pow base exponent.toNat

structure Dyadic where
  negative : Bool
  m : Nat
  q : Int
  /-- The next double towards zero is half as far away as the next one away from it. -/
  narrow : Bool

namespace Dyadic

def ofBits (bits : UInt64) : Dyadic :=
  let exponent := ((bits >>> 52) &&& 0x7FF).toNat
  let fraction := (bits &&& 0xFFFFFFFFFFFFF).toNat
  let negative := bits >>> 63 == 1
  if exponent = 0 then ⟨negative, fraction, -1074, false⟩
  else ⟨negative, powerOf 2 52 + fraction, (exponent : Int) - 1075, fraction == 0 && decide (1 < exponent)⟩

def ofFloat (x : Float) : Dyadic := ofBits x.toBits

def toInt? (x : Dyadic) : Option Int :=
  let sign : Int := if x.negative then -1 else 1
  if 0 ≤ x.q then some (sign * (x.m * powerOf 2 x.q : Nat))
  else if x.m % powerOf 2 (-x.q) = 0 then some (sign * (x.m / powerOf 2 (-x.q) : Nat))
  else none

def compareScaled (a : Nat) (i : Int) (n : Nat) (j : Int) : Ordering :=
  compare (a * powerOf 10 i * powerOf 2 (-j)) (n * powerOf 2 j * powerOf 10 (-i))

/-- The numeral lies among the reals whose nearest double is the magnitude of `x`. -/
def readsBack (x : Dyadic) (d : Decimal) : Bool :=
  let low := 4 * x.m - (if x.narrow then 1 else 2)
  let high := 4 * x.m + 2
  let closed := x.m % 2 == 0
  let atLow := compareScaled d.digits d.exponent low (x.q - 2)
  let atHigh := compareScaled d.digits d.exponent high (x.q - 2)
  (atLow == .gt || (closed && atLow == .eq)) && (atHigh == .lt || (closed && atHigh == .eq))

def floorAt (x : Dyadic) (exponent : Int) : Nat :=
  (x.m * powerOf 2 x.q * powerOf 10 (-exponent)) / (powerOf 2 (-x.q) * powerOf 10 exponent)

def leadingFrom (x : Dyadic) : Nat → Int → Int
  | 0, k => k
  | fuel + 1, k =>
    if compareScaled 1 k x.m x.q == .gt then k else leadingFrom x fuel (k + 1)

/-- The numeral of the grid `10 ^ exponent` next to the magnitude that reads back, if any;
the nearer of two, and the even one of two equally near. -/
def onGrid? (x : Dyadic) (exponent : Int) : Option Decimal :=
  let down := x.floorAt exponent
  let lower : Decimal := ⟨down, exponent⟩
  let upper : Decimal := ⟨down + 1, exponent⟩
  match x.readsBack lower, x.readsBack upper with
  | true, true =>
    match compareScaled (2 * down + 1) exponent (2 * x.m) x.q with
    | .gt => some lower
    | .lt => some upper
    | .eq => some (if down % 2 = 0 then lower else upper)
  | true, false => some lower
  | false, true => some upper
  | false, false => none

def shortest (x : Dyadic) : Decimal :=
  if x.m = 0 then ⟨0, 0⟩ else
  let bits : Int := x.q + (Nat.log2 x.m : Nat)
  let leading := x.leadingFrom 4 (Int.fdiv (bits * 30103) 100000 - 1)
  ((List.range 17).findSome? fun n => x.onGrid? (leading - (n + 1 : Nat))).getD
    ⟨x.floorAt (leading - 17), leading - 17⟩

end Dyadic

end CssExtract
