import CssExtract.Script.Node
import CssExtract.Text.Blank
import CssExtract.Text.Word

namespace CssExtract.Script

open Text

def escapeLiteral (quote c : Char) : List Char :=
  if c = '\\' || c = quote then ['\\', c]
  else if c = '\n' then ['\\', 'n']
  else if c = '\r' then ['\\', 'r']
  else if c = '\t' then ['\\', 't']
  else [c]

def printString (quote : Char) (s : List Char) : List Char :=
  quote :: s.flatMap (escapeLiteral quote) ++ [quote]

def isDottedName (start : Bool) : List Char → Bool
  | [] => !start
  | c :: cs =>
    if start then isNameStart c && isDottedName false cs
    else if c = '.' then isDottedName true cs
    else isNamePart c && isDottedName false cs

def indent (level : Nat) : List Char := List.replicate (2 * level) ' '

def Key.print : Key → List Char
  | .identifier name => name.toList
  | .string value quote => printString quote value.toList

def commaSeparated (items : List (List Char)) : List Char := [',', ' '].intercalate items

def printLines (level : Nat) (separator : List Char) (lines : List (List Char)) : List Char :=
  if lines.isEmpty then ['{', '}']
  else
    '{' :: '\n' :: separator.intercalate (lines.map (indent (level + 1) ++ ·)) ++
      '\n' :: indent level ++ ['}']

def Node.isCallee : Node → Bool
  | .identifier _ | .member .. | .call .. => true
  | .raw source => isDottedName true (trim source.toList)
  | _ => false

def parenthesised (s : List Char) : List Char := '(' :: s ++ [')']

def Node.asCallee (node : Node) (printed : List Char) : List Char :=
  if node.isCallee then printed else parenthesised printed

/-- The body of an arrow function must not look like a block when it is none. -/
def Node.asBody (node : Node) (printed : List Char) : List Char :=
  match node with
  | .object _ => parenthesised printed
  | .raw _ => if printed.head? = some '{' then parenthesised printed else printed
  | _ => printed

mutual

/-- The text of a node whose lines after the first stand at a level of indentation. -/
def Node.print (level : Nat) : Node → List Char
  | .identifier name => name.toList
  | .string value quote => printString quote value.toList
  | .number value => value.render.toList
  | .bool value => if value then "true".toList else "false".toList
  | .null => "null".toList
  | .raw source => trim source.toList
  | .member object property => object.asCallee (object.print level) ++ '.' :: property.toList
  | .call callee arguments =>
    callee.asCallee (callee.print level) ++
      parenthesised (commaSeparated (printAll level arguments))
  | .block body => printLines level ['\n'] ((printAll (level + 1) body).map (· ++ [';']))
  | .arrow params body =>
    parenthesised (commaSeparated (params.map String.toList)) ++ " => ".toList ++
      body.asBody (body.print level)
  | .property entry => entry.print level
  | .object entries => printLines level [',', '\n'] (printEntries (level + 1) entries)
  | .array elements => '[' :: commaSeparated (printAll level elements) ++ [']']
  | .text value => value.toList
  | .template first holes => '`' :: first.toList ++ printHoles level holes ++ ['`']

def Property.print (level : Nat) : Property → List Char
  | .mk key value => key.print ++ ':' :: ' ' :: value.print level

def printAll (level : Nat) : List Node → List (List Char)
  | [] => []
  | node :: nodes => node.print level :: printAll level nodes

def printEntries (level : Nat) : List Property → List (List Char)
  | [] => []
  | entry :: entries => entry.print level :: printEntries level entries

def printHoles (level : Nat) : List Hole → List Char
  | [] => []
  | .mk expr text :: holes =>
    '$' :: '{' :: expr.print level ++ '}' :: text.toList ++ printHoles level holes

end

mutual

/-- Literal text stands nowhere but in a template. -/
def Node.isCode : Node → Bool
  | .identifier _ | .string .. | .number _ | .bool _ | .null | .raw _ => true
  | .member object _ => object.isCode
  | .call callee arguments => callee.isCode && allCode arguments
  | .block body => allCode body
  | .arrow _ body => body.isCode
  | .property entry => entry.isCode
  | .object entries => allEntriesCode entries
  | .array elements => allCode elements
  | .text _ => false
  | .template _ holes => allHolesCode holes

def Property.isCode : Property → Bool
  | .mk _ value => value.isCode

def allCode : List Node → Bool
  | [] => true
  | node :: nodes => node.isCode && allCode nodes

def allEntriesCode : List Property → Bool
  | [] => true
  | entry :: entries => entry.isCode && allEntriesCode entries

def allHolesCode : List Hole → Bool
  | [] => true
  | .mk expr _ :: holes => expr.isCode && allHolesCode holes

end

def Node.code (node : Node) : String := String.ofList (node.print 0)

def Node.code? (node : Node) : Option String := if node.isCode then some node.code else none

theorem print_quoted (level : Nat) (s : String) :
    (Node.quoted s).print level = printString '"' s.toList := by
  simp [Node.print]

theorem printAll_eq_map (level : Nat) (nodes : List Node) :
    printAll level nodes = nodes.map (·.print level) := by
  induction nodes with
  | nil => simp [printAll]
  | cons node nodes ih => simp [printAll, ih]

end CssExtract.Script
