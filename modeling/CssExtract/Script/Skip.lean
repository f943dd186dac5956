import CssExtract.Text.Quoted

namespace CssExtract.Script

/-- A part of the source that has been opened and not yet closed. -/
inductive Frame
  | string (quote : Char)
  | template
  | lineComment
  | blockComment (start : Nat)
  | group (closer : Char)
deriving DecidableEq, Repr

inductive ScanCause
  | unterminatedString
  | unterminatedTemplate
  | unterminatedComment
  | unbalanced
  | wrongCloser (found : Char)
  | endless
deriving DecidableEq, Repr

def ScanCause.message : ScanCause → String
  | .unterminatedString => "Unterminated string literal"
  | .unterminatedTemplate => "Unterminated template literal"
  | .unterminatedComment => "Unterminated comment"
  | .unbalanced => "Unbalanced brackets"
  | .wrongCloser found => "Unbalanced " ++ Text.quoted (String.singleton found)
  | .endless => "Endless search"

structure ScanError where
  cause : ScanCause
  offset : Nat
deriving DecidableEq, Repr

section Results

variable {ε α β : Type} {x : Except ε α} {b : β} {e : ε}

theorem bind_eq_ok_iff {f : α → Except ε β} : (x >>= f) = .ok b ↔ ∃ a, x = .ok a ∧ f a = .ok b := by
  cases x <;> simp [bind, Except.bind]

theorem bind_eq_error_iff {f : α → Except ε β} :
    (x >>= f) = .error e ↔ x = .error e ∨ ∃ a, x = .ok a ∧ f a = .error e := by
  cases x <;> simp [bind, Except.bind]

theorem map_eq_ok_iff {f : α → β} : x.map f = .ok b ↔ ∃ a, x = .ok a ∧ f a = b := by
  cases x <;> simp [Except.map]

theorem map_eq_error_iff {f : α → β} : x.map f = .error e ↔ x = .error e := by
  cases x <;> simp [Except.map]

end Results

def closerOf? : Char → Option Char
  | '(' => some ')'
  | '[' => some ']'
  | '{' => some '}'
  | _ => none

def isCloser (c : Char) : Bool := c = ')' || c = ']' || c = '}'

/-- What a character does to the innermost open part: how many characters are read, and the
parts that take its place. -/
structure Move where
  width : Nat
  frames : List Frame
deriving DecidableEq, Repr

def opens? (i : Nat) (c : Char) (next : Option Char) : Option (Nat × Frame) :=
  if c = '\'' || c = '"' then some (1, .string c)
  else if c = '`' then some (1, .template)
  else if c = '/' && next = some '/' then some (2, .lineComment)
  else if c = '/' && next = some '*' then some (2, .blockComment i)
  else none

def Frame.move (i : Nat) (c : Char) (next : Option Char) : Frame → Except ScanCause Move
  | .string quote =>
    if c = '\\' then .ok ⟨2, [.string quote]⟩
    else if c = quote then .ok ⟨1, []⟩
    else if c = '\n' then .error .unterminatedString
    else .ok ⟨1, [.string quote]⟩
  | .template =>
    if c = '\\' then .ok ⟨2, [.template]⟩
    else if c = '`' then .ok ⟨1, []⟩
    else if c = '$' && next = some '{' then .ok ⟨2, [.group '}', .template]⟩
    else .ok ⟨1, [.template]⟩
  | .lineComment => if c = '\n' then .ok ⟨1, []⟩ else .ok ⟨1, [.lineComment]⟩
  | .blockComment start =>
    if c = '*' && next = some '/' then .ok ⟨2, []⟩ else .ok ⟨1, [.blockComment start]⟩
  | .group closer =>
    match opens? i c next with
    | some (width, frame) => .ok ⟨width, [frame, .group closer]⟩
    | none =>
      match closerOf? c with
      | some inner => .ok ⟨1, [.group inner, .group closer]⟩
      | none =>
        if !isCloser c then .ok ⟨1, [.group closer]⟩
        else if c = closer then .ok ⟨1, []⟩
        else .error (.wrongCloser c)

/-- The text has ended at `i` with the parts of the stack open. Only a line comment may end so. -/
def atEnd (i : Nat) : List Frame → Except ScanError Nat
  | [] => .ok i
  | .lineComment :: frames => atEnd i frames
  | .blockComment start :: _ => .error ⟨.unterminatedComment, start⟩
  | .string _ :: _ => .error ⟨.unterminatedString, i⟩
  | .template :: _ => .error ⟨.unterminatedTemplate, i⟩
  | .group _ :: _ => .error ⟨.unbalanced, i⟩

def skip (i : Nat) : List Frame → List Char → Except ScanError Nat
  | [], _ => .ok i
  | frames, [] => atEnd i frames
  | frame :: frames, c :: cs =>
    match frame.move i c cs.head? with
    | .error cause => .error ⟨cause, i⟩
    | .ok ⟨width, opened⟩ =>
      match width, cs with
      | 2, _ :: cs => skip (i + 2) (opened ++ frames) cs
      | 2, [] => atEnd (i + 2) (opened ++ frames)
      | _, cs => skip (i + 1) (opened ++ frames) cs
termination_by structural _ s => s

def skipComment (s : List Char) (i : Nat) : Except ScanError Nat :=
  match s.drop i with
  | '/' :: '/' :: cs => skip (i + 2) [.lineComment] cs
  | cs => skip (i + 2) [.blockComment i] (cs.drop 2)

def skipString? (s : List Char) (i : Nat) : Option (Except ScanError Nat) :=
  match s.drop i with
  | [] => none
  | quote :: cs => some (skip (i + 1) [.string quote] cs)

def skipTemplate (s : List Char) (i : Nat) : Except ScanError Nat :=
  skip (i + 1) [.template] (s.drop (i + 1))

def skipGroup? (s : List Char) (i : Nat) : Option (Except ScanError Nat) :=
  match s.drop i with
  | [] => none
  | c :: cs => (closerOf? c).map fun closer => skip (i + 1) [.group closer] cs

end CssExtract.Script
