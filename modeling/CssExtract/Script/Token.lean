import CssExtract.Script.Literal
import CssExtract.Text.Position

namespace CssExtract.Script

open Text

inductive Terminal
  | name
  | string
  | template
  | number
  | arrow
  | operator
  | dot
  | openParen
  | closeParen
  | openBracket
  | closeBracket
  | openBrace
  | closeBrace
  | comma
deriving DecidableEq, Repr

def Terminal.label : Terminal → String
  | .name => "NAME"
  | .string => "STRING"
  | .template => "TEMPLATE"
  | .number => "NUMBER"
  | .arrow => "ARROW"
  | .operator => "OP"
  | .dot => "DOT"
  | .openParen => "LPAR"
  | .closeParen => "RPAR"
  | .openBracket => "LSQB"
  | .closeBracket => "RSQB"
  | .openBrace => "LBRACE"
  | .closeBrace => "RBRACE"
  | .comma => "COMMA"

def Terminal.closer? : Terminal → Option Terminal
  | .openParen => some .closeParen
  | .openBracket => some .closeBracket
  | .openBrace => some .closeBrace
  | _ => none

def Terminal.isCloser (t : Terminal) : Bool :=
  t = .closeParen || t = .closeBracket || t = .closeBrace

def isOperator (c : Char) : Bool := c ∈ "-+*/%<>=!&|?:~^;".toList

def isGap (c : Char) : Bool := c = ' ' || c = '\t' || c = '\x0c' || c = '\r' || c = '\n'

def punctuation? : Char → Option Terminal
  | '.' => some .dot
  | '(' => some .openParen
  | ')' => some .closeParen
  | '[' => some .openBracket
  | ']' => some .closeBracket
  | '{' => some .openBrace
  | '}' => some .closeBrace
  | ',' => some .comma
  | _ => none

def terminal? (s : List Char) : Option (Terminal × Nat) :=
  match s with
  | [] => none
  | '=' :: '>' :: _ => some (.arrow, 2)
  | c :: _ =>
    ((nameLength? isAsciiNamePart s).map (.name, ·)).or <|
    ((stringLength? s).map (.string, ·)).or <|
    ((templateLength? s).map (.template, ·)).or <|
    ((numberLength? s).map (.number, ·)).or <|
    (if isOperator c then some (.operator, (s.takeWhile isOperator).length)
     else (punctuation? c).map (·, 1))

/-- A terminal with its text and the offset where it starts; without one, a character that
starts none. -/
structure Token where
  terminal : Option Terminal
  text : List Char
  start : Nat
deriving DecidableEq, Repr

def Token.stop (t : Token) : Nat := t.start + t.text.length

def depthAfter (depth : Nat) (t : Terminal) : Nat :=
  if t.closer?.isSome then depth + 1 else if t.isCloser then depth - 1 else depth

/-- The token at the front of a text that starts with no gap, where `chain` says that a member
access or a call is due. -/
def tokenAt (chain : Bool) (i : Nat) (s : List Char) : Token :=
  if chain && s.head? = some '.' then ⟨some .dot, ['.'], i⟩
  else match terminal? s with
    | some (t, length) => ⟨some t, s.take length, i⟩
    | none => ⟨none, s.take 1, i⟩

def tokensFrom (i depth : Nat) (previous : Option Terminal) : Nat → List Char → List Token
  | _, [] => []
  | pending + 1, _ :: cs => tokensFrom (i + 1) depth previous pending cs
  | 0, c :: cs =>
    if isGap c then tokensFrom (i + 1) depth previous 0 cs
    else
      let chain := depth = 0 && previous.any (· ≠ .dot)
      let token := tokenAt chain i (c :: cs)
      match token.terminal with
      | none => [token]
      | some t =>
        token :: tokensFrom (i + 1) (depthAfter depth t) (some t) (token.text.length - 1) cs
termination_by structural _ s => s

def tokens (s : List Char) : List Token := tokensFrom 0 0 none 0 s

end CssExtract.Script
