import CssExtract.Number.Decimal

namespace CssExtract

inductive Number
  | int (n : Int)
  | float (x : Float)
deriving Inhabited

namespace Number

def positional : Int × Int := (-4, 16)

def zeros (n : Nat) : List Char := List.replicate n '0'

/-- Positional notation always shows a fraction, if only `.0`; an exponent shows its sign and
at least two digits. -/
def layout (digits : List Char) (leading : Int) : List Char :=
  if positional.1 ≤ leading && leading < positional.2 then
    if leading < 0 then '0' :: '.' :: zeros (leading.natAbs - 1) ++ digits
    else
      let whole := leading.toNat + 1
      let fraction := digits.drop whole
      digits.take whole ++ zeros (whole - digits.length) ++ '.' :: (if fraction.isEmpty then ['0'] else fraction)
  else
    let fraction := digits.drop 1
    let exponent := Nat.toDigits 10 leading.natAbs
    digits.take 1 ++ (if fraction.isEmpty then [] else '.' :: fraction) ++
      'e' :: (if leading < 0 then '-' else '+') :: zeros (2 - exponent.length) ++ exponent

def significant (digits : List Char) : List Char :=
  match (digits.reverse.dropWhile (· = '0')).reverse with
  | [] => ['0']
  | ds => ds

def renderFloat (x : Float) : String :=
  if x.isNaN then "nan"
  else if x.isInf then (if x < 0 then "-inf" else "inf")
  else
    let dyadic := Dyadic.ofFloat x
    let d := dyadic.shortest
    let digits := Nat.toDigits 10 d.digits
    let leading : Int := if d.digits = 0 then 0 else d.exponent + digits.length - 1
    String.ofList ((if dyadic.negative then ['-'] else []) ++ layout (significant digits) leading)

def integral? (x : Float) : Option Int :=
  if x.isNaN || x.isInf then none else (Dyadic.ofFloat x).toInt?

def render : Number → String
  | .int n => toString n
  | .float x =>
    match integral? x with
    | some n => toString n
    | none =>
      if x.isNaN then "NaN"
      else if x.isInf then (if x < 0 then "-Infinity" else "Infinity")
      else renderFloat x

def renderExact : Number → String
  | .int n => toString n
  | .float x =>
    if x.isNaN then "NaN"
    else if x.isInf then (if x < 0 then "-Infinity" else "Infinity")
    else renderFloat x

/-- From here on an integer rounds to no finite double. -/
def floatBound : Nat := powerOf 2 1024 - powerOf 2 970

def isFinite : Float → Bool := fun x => !(x.isNaN || x.isInf)

end Number

end CssExtract
