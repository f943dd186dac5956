import CssExtract.Number.Render
import CssExtract.Text.Digit
import CssExtract.Text.Word

namespace CssExtract.Script

open Text

def digitsLength (s : List Char) : Nat := (s.takeWhile isDigit).length

def exponentLength : List Char → Nat
  | e :: s =>
    if e = 'e' || e = 'E' then
      let sign := match s with
        | '+' :: _ => 1
        | '-' :: _ => 1
        | _ => 0
      match digitsLength (s.drop sign) with
      | 0 => 0
      | n => 1 + sign + n
    else 0
  | [] => 0

def numberLength? (s : List Char) : Option Nat :=
  let whole := digitsLength s
  let rest := s.drop whole
  let mantissa := match rest with
    | '.' :: fraction => whole + 1 + digitsLength fraction
    | _ => whole
  if whole = 0 && mantissa ≤ 1 then none
  else some (mantissa + exponentLength (s.drop mantissa))

def signedNumberLength? : List Char → Option Nat
  | '-' :: s => (numberLength? s).map (· + 1)
  | s => numberLength? s

/-- Length of what is left of a string once its opening quote is read. A backslash escapes
any character but a newline. -/
def stringTail? (quote : Char) : List Char → Option Nat
  | [] => none
  | '\\' :: c :: s => if c = '\n' then none else (stringTail? quote s).map (· + 2)
  | c :: s =>
    if c = quote then some 1
    else if c = '\n' || c = '\\' then none
    else (stringTail? quote s).map (· + 1)

def stringLength? : List Char → Option Nat
  | c :: s => if c = '"' || c = '\'' then (stringTail? c s).map (· + 1) else none
  | [] => none

def templateTail? : List Char → Option Nat
  | [] => none
  | '\\' :: c :: s => if c = '\n' then none else (templateTail? s).map (· + 2)
  | c :: s =>
    if c = '`' then some 1
    else if c = '\\' then none
    else (templateTail? s).map (· + 1)

def templateLength? : List Char → Option Nat
  | '`' :: s => (templateTail? s).map (· + 1)
  | _ => none

def hasSubstitution : List Char → Bool
  | '$' :: '{' :: _ => true
  | _ :: s => hasSubstitution s
  | [] => false

/-- Every `\e` becomes `c`, in one pass from the left. -/
def unescape (e c : Char) : List Char → List Char
  | '\\' :: x :: s => if x = e then c :: unescape e c s else '\\' :: unescape e c (x :: s)
  | x :: s => x :: unescape e c s
  | [] => []

def inner (s : List Char) : List Char := s.tail.dropLast

def readDecimal (s : List Char) : Decimal :=
  let s := match s with
    | '-' :: s => s
    | s => s
  let value (ds : List Char) : Nat := ds.foldl (fun n d => 10 * n + (digitValue? d).getD 0) 0
  let whole := s.takeWhile isDigit
  let rest := s.drop whole.length
  let fraction := match rest with
    | '.' :: rest => rest.takeWhile isDigit
    | _ => []
  let rest := match rest with
    | '.' :: rest => rest.drop fraction.length
    | rest => rest
  let exponent : Int := match rest with
    | _ :: '-' :: ds => -(value (ds.takeWhile isDigit) : Nat)
    | _ :: '+' :: ds => value (ds.takeWhile isDigit)
    | _ :: ds => value (ds.takeWhile isDigit)
    | [] => 0
  ⟨value (whole ++ fraction), exponent - fraction.length⟩

def readFloat (s : List Char) : Float :=
  let x := (readDecimal s).toFloat
  if s.head? = some '-' then -x else x

end CssExtract.Script
