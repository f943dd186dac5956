namespace CssExtract.Command

inductive LineError
  | unknownOption (name : String)
  | missingValue (name : String)
  | unexpectedValue (name : String)
  | missingArgument
  | extraArgument (word : String)
  | unknownCommand (name : String)
  | missingCommand
  | badValue (option value : String)
deriving DecidableEq, Repr

def LineError.message : LineError → String
  | .unknownOption name => "No such option: " ++ name
  | .missingValue name => "Option '" ++ name ++ "' requires an argument."
  | .unexpectedValue name => "Option '" ++ name ++ "' does not take a value."
  | .missingArgument => "Missing argument 'SOURCE_FILE'."
  | .extraArgument word => "Got unexpected extra argument (" ++ word ++ ")"
  | .unknownCommand name => "No such command '" ++ name ++ "'."
  | .missingCommand => "Missing command."
  | .badValue option value => "Invalid value for '" ++ option ++ "': '" ++ value ++ "'"

inductive Action (α : Type)
  | flag (set : α → α)
  | value (set : String → α → α)

structure Switch (α : Type) where
  name : String
  letter : Option Char := none
  action : Action α

inductive Progress (α : Type)
  | done (a : α)
  | needs (name : String) (set : String → α)

section

variable {α : Type} (switches : List (Switch α))

/-- Reads letters after one hyphen. What follows the letter of an option with a value is that. -/
def readLetters (a : α) : List Char → Except LineError (Progress α)
  | [] => .ok (.done a)
  | c :: cs =>
    let name := String.ofList ['-', c]
    match switches.find? (·.letter = some c) with
    | none => .error (.unknownOption name)
    | some switch =>
      match switch.action with
      | .flag set => readLetters (set a) cs
      | .value set => .ok (if cs.isEmpty then .needs name (set · a) else .done (set (String.ofList cs) a))

def cutValue (word : List Char) : List Char × Option (List Char) :=
  let name := word.takeWhile (· ≠ '=')
  (name, ((word.drop name.length).tail?))

def readOption (a : α) (word : List Char) : Except LineError (Progress α) :=
  let (name, value) := cutValue word
  let name := String.ofList name
  match switches.find? (·.name = name) with
  | some switch =>
    match switch.action, value with
    | .flag set, none => .ok (.done (set a))
    | .flag _, some _ => .error (.unexpectedValue name)
    | .value set, some value => .ok (.done (set (String.ofList value) a))
    | .value set, none => .ok (.needs name (set · a))
  | none =>
    if ['-', '-'].isPrefixOf word then .error (.unknownOption name) else readLetters switches a word.tail

def isOption (word : String) : Bool := word.toList.head? = some '-' && word ≠ "-"

/-- Reads the options of a line and gives the other words; unless options may be mixed with them,
the first other word ends the options. -/
def readLine (mixed : Bool) (a : α) : List String → Except LineError (α × List String)
  | [] => .ok (a, [])
  | word :: words =>
    if word = "--" then .ok (a, words)
    else if isOption word then
      match readOption switches a word.toList, words with
      | .error e, _ => .error e
      | .ok (.done a), words => readLine mixed a words
      | .ok (.needs _ set), value :: words => readLine mixed (set value) words
      | .ok (.needs name _), [] => .error (.missingValue name)
    else if mixed then (readLine mixed a words).map fun (a, others) => (a, word :: others)
    else .ok (a, word :: words)

end

end CssExtract.Command
