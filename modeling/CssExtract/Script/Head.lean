import CssExtract.Eval.Value
import CssExtract.Script.Token
import CssExtract.Text.Quoted

namespace CssExtract.Script

open Text
open Eval (Value)

inductive ArgumentShape
  | function
  | constant (value : Value)
  | identifier
  | expression

/-- An argument's source runs from its first token to its last. -/
structure Argument where
  source : String
  shape : ArgumentShape

inductive Op
  | member (name : String)
  | call (arguments : List Argument)

structure Head where
  callee : String
  ops : List Op

inductive HeadCause
  | unexpected (token : Option (Terminal × String))
  | noTerminal (c : Char)
deriving DecidableEq, Repr

structure HeadError where
  cause : HeadCause
  line : Nat
  column : Nat
deriving DecidableEq, Repr

def HeadError.message (e : HeadError) : String :=
  match e.cause with
  | .unexpected token =>
    let (label, text) := match token with
      | some (t, text) => (t.label, text)
      | none => ("$END", "")
    "Unexpected token Token(" ++ quoted label ++ ", " ++ quoted text ++ ") at line " ++
      toString e.line ++ ", column " ++ toString e.column ++ "."
  | .noTerminal c =>
    "No terminal matches '" ++ String.singleton c ++ "' in the current parser context, at line " ++
      toString e.line ++ " col " ++ toString e.column

def unquoteArgument (s : List Char) : List Char :=
  let quote := s.head?.getD '"'
  unescape '\\' '\\' (unescape 't' '\t' (unescape 'n' '\n' (unescape quote quote (inner s))))

/-- A piece of an argument: a token outside brackets, or a whole bracket group. -/
inductive Item
  | token (t : Terminal) (text : List Char)
  | group
deriving DecidableEq, Repr

def Item.isName (text : List Char) (item : Item) : Bool := item = .token .name text

def isFunction (items : List Item) : Bool :=
  items.any (fun | .token .arrow _ => true | _ => false) ||
    match items with
    | first :: rest =>
      first.isName "function".toList ||
        (first.isName "async".toList &&
          rest.head?.any fun | .token _ text => text = "function".toList | .group => false)
    | [] => false

def nameShape (text : List Char) : ArgumentShape :=
  if text = "true".toList then .constant (.bool true)
  else if text = "false".toList then .constant (.bool false)
  else if text = "null".toList then .constant .null
  else .identifier

def classify (items : List Item) : ArgumentShape :=
  if isFunction items then .function
  else match items with
    | [.token .string text] => .constant (.string (String.ofList (unquoteArgument text)))
    | [.token .template text] =>
      if hasSubstitution text then .expression
      else .constant (.string (String.ofList (inner text)))
    | [.token .number text] => .constant (.number (.float (readFloat text)))
    | [.token .name text] => nameShape text
    | _ => .expression

structure OpenArgument where
  items : List Item
  span : Span

/-- How far a head is read. Lists grow at their end. -/
inductive HeadState
  | start
  | chain (head : Head)
  | member (head : Head)
  | call (head : Head) (arguments : List Argument) (current : Option OpenArgument)
      (closers : List Terminal)

def OpenArgument.close (s : List Char) (a : OpenArgument) : Argument :=
  ⟨String.ofList (slice s a.span), classify a.items⟩

def extend (current : Option OpenArgument) (token : Token) (item : List Item) : OpenArgument :=
  match current with
  | some a => ⟨a.items ++ item, ⟨a.span.start, token.stop⟩⟩
  | none => ⟨item, ⟨token.start, token.stop⟩⟩

def HeadState.step? (s : List Char) (state : HeadState) (token : Token) (t : Terminal) :
    Option HeadState :=
  match state with
  | .start => if t = .name then some (.chain ⟨String.ofList token.text, []⟩) else none
  | .chain head =>
    match t with
    | .dot => some (.member head)
    | .openParen => some (.call head [] none [])
    | _ => none
  | .member head =>
    if t = .name then some (.chain ⟨head.callee, head.ops ++ [.member (String.ofList token.text)]⟩)
    else none
  | .call head arguments current [] =>
    match t, current with
    | .closeParen, some a => some (.chain ⟨head.callee, head.ops ++ [.call (arguments ++ [a.close s])]⟩)
    | .closeParen, none =>
      if arguments.isEmpty then some (.chain ⟨head.callee, head.ops ++ [.call []]⟩) else none
    | .comma, some a => some (.call head (arguments ++ [a.close s]) none [])
    | .comma, none => none
    | t, current =>
      match t.closer? with
      | some closer => some (.call head arguments (some (extend current token [.group])) [closer])
      | none =>
        if t.isCloser then none
        else some (.call head arguments (some (extend current token [.token t token.text])) [])
  | .call head arguments current (closer :: closers) =>
    let current := some (extend current token [])
    match t.closer? with
    | some inner => some (.call head arguments current (inner :: closer :: closers))
    | none =>
      if t = closer then some (.call head arguments current closers)
      else if t.isCloser then none
      else some (.call head arguments current (closer :: closers))

def headError (s : List Char) (cause : HeadCause) (offset : Nat) : HeadError :=
  let pos := position s offset
  ⟨cause, pos.line, pos.column + 1⟩

def readTokens (s : List Char) (state : HeadState) (last : Nat) : List Token → Except HeadError Head
  | [] =>
    match state with
    | .chain head =>
      if head.ops.isEmpty then .error (headError s (.unexpected none) last) else .ok head
    | _ => .error (headError s (.unexpected none) last)
  | token :: rest =>
    match token.terminal with
    | none => .error (headError s (.noTerminal (token.text.headD ' ')) token.start)
    | some t =>
      match state.step? s token t with
      | some state => readTokens s state token.start rest
      | none => .error (headError s (.unexpected (some (t, String.ofList token.text))) token.start)

def readHeadText (s : List Char) : Except HeadError Head := readTokens s .start 0 (tokens s)

end CssExtract.Script
