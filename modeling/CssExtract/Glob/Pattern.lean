namespace CssExtract.Glob

inductive CharItem
  | char (c : Char)
  | range (low high : Char)
  | named (test : Char → Bool)

structure CharSet where
  negated : Bool
  items : List CharItem

inductive Repeat
  | once
  | optional
  | many
  | atLeastOnce
deriving DecidableEq, Repr

/-- A star at the start of a segment in the pattern needs a character to stand before. -/
inductive Item
  | char (c : Char)
  | slashes
  | anyChar
  | oneOf (set : CharSet)
  | star (needsChar : Bool)
  | segments
  | remainder
  | group (times : Repeat) (alternatives : List (List Item))
  | except (needsChar : Bool) (alternatives : List (List Item))
  | never

def CharItem.contains : CharItem → Char → Bool
  | .char x, c => x = c
  | .range low high, c => low ≤ c && c ≤ high
  | .named test, c => test c

def CharSet.contains (set : CharSet) (c : Char) : Bool := set.items.any (·.contains c) != set.negated

def isPunctuation (c : Char) : Bool := decide (33 ≤ c.toNat) && decide (c.toNat ≤ 126) && !c.isAlphanum

def classes : List (String × (Char → Bool)) := [
    ("alnum", Char.isAlphanum),
    ("alpha", Char.isAlpha),
    ("ascii", fun c => decide (c.toNat < 128)),
    ("blank", fun c => c = ' ' || c = '\t'),
    ("cntrl", fun c => decide (c.toNat < 32) || c.toNat = 127),
    ("digit", Char.isDigit),
    ("graph", fun c => decide (33 ≤ c.toNat) && decide (c.toNat ≤ 126)),
    ("lower", Char.isLower),
    ("print", fun c => decide (32 ≤ c.toNat) && decide (c.toNat ≤ 126)),
    ("punct", isPunctuation),
    ("space", fun c => c = ' ' || (decide (9 ≤ c.toNat) && decide (c.toNat ≤ 13))),
    ("upper", Char.isUpper),
    ("word", fun c => c.isAlphanum || c = '_'),
    ("xdigit", fun c => c.isDigit || ('a' ≤ c && c ≤ 'f') || ('A' ≤ c && c ≤ 'F'))
  ]

def namedClass? (s : List Char) : Option ((Char → Bool) × List Char) :=
  classes.findSome? fun (name, test) =>
    let written := ':' :: name.toList ++ [':', ']']
    if written.isPrefixOf s then some (test, s.drop written.length) else none

/-- Items of a set, up to its closing bracket, which is a member where `first` holds; it may hold
no slash. A hyphen between two characters makes a range, which has no members when it runs
backwards; a hyphen after a range is a member. -/
def setItems : Nat → Bool → List CharItem → List Char → Option (List CharItem × List Char)
  | 0, _, _, _ => none
  | _ + 1, _, _, [] => none
  | fuel + 1, first, items, c :: s =>
    if c = ']' && !first then some (items, s)
    else if c = '/' then none
    else match (if c = '[' then namedClass? s else none) with
      | some (test, '-' :: rest) => setItems fuel false (items ++ [.named test, .char '-']) rest
      | some (test, rest) => setItems fuel false (items ++ [.named test]) rest
      | none =>
        match s with
        | '-' :: high :: rest =>
          if high = '/' then none
          else if high = ']' then setItems fuel false (items ++ [.char c, .char '-']) (high :: rest)
          else if high = '[' && (namedClass? rest).isSome then
            setItems fuel false (items ++ [.char c, .char '-']) (high :: rest)
          else match rest with
            | '-' :: rest => setItems fuel false (items ++ [.range c high, .char '-']) rest
            | rest => setItems fuel false (items ++ [.range c high]) rest
        | s => setItems fuel false (items ++ [.char c]) s

def set? (s : List Char) : Option (CharSet × List Char) :=
  let (negated, s) := match s with
    | c :: rest => if c = '!' || c = '^' then (true, rest) else (false, s)
    | [] => (false, [])
  (setItems (s.length + 1) true [] s).map fun (items, rest) => (⟨negated, items⟩, rest)

def repeat? : Char → Option Repeat
  | '@' => some .once
  | '?' => some .optional
  | '*' => some .many
  | '+' => some .atLeastOnce
  | _ => none

def groupOf (c : Char) (atStart : Bool) (alternatives : List (List Item)) : Item :=
  match repeat? c with
  | some times => .group times alternatives
  | none => .except atStart alternatives

def opensGroup (c : Char) (s : List Char) : Bool :=
  (c = '!' || (repeat? c).isSome) && s.head? = some '('

def single (c : Char) (s : List Char) : Item × List Char :=
  if c = '?' then (.anyChar, s)
  else if c = '[' then
    match set? s with
    | some (set, rest) => (.oneOf set, rest)
    | none => (.char c, s)
  else (.char c, s)

/-- The alternatives up to the closing parenthesis of a group, and what follows it. `first` says
that the group is at the start of a segment and `atStart` that this place is; `done` and `current`
are the alternatives and the items so far, last first. -/
def alternatives? : Nat → Bool → Bool → List (List Item) → List Item → List Char →
    Option (List (List Item) × List Char)
  | 0, _, _, _, _, _ => none
  | _ + 1, _, _, _, _, [] => none
  | fuel + 1, first, atStart, done, current, c :: s =>
    let nested :=
      if opensGroup c s then alternatives? fuel atStart atStart [] [] s.tail else none
    match nested with
    | some (inner, rest) =>
      alternatives? fuel first false done (groupOf c atStart inner :: current) rest
    | none =>
      if c = ')' then some ((current.reverse :: done).reverse, s)
      else if c = '|' then alternatives? fuel first first (current.reverse :: done) [] s
      else if c = '*' then alternatives? fuel first false done (.star atStart :: current) s
      else if c = '/' then alternatives? fuel first false done (.never :: current) s
      else
        let (item, rest) := single c s
        alternatives? fuel first false done (item :: current) rest

def itemsFrom : Nat → Bool → List Item → List Char → List Item
  | 0, _, items, _ => items.reverse
  | _ + 1, _, items, [] => items.reverse
  | fuel + 1, atStart, items, c :: s =>
    let nested :=
      if opensGroup c s then alternatives? s.length atStart atStart [] [] s.tail else none
    match nested with
    | some (inner, rest) => itemsFrom fuel false (groupOf c atStart inner :: items) rest
    | none =>
      if c = '/' then itemsFrom fuel true (.slashes :: items) (s.dropWhile (· = '/'))
      else if c = '*' then
        match atStart, s with
        | true, ['*'] => (.remainder :: items).reverse
        | true, '*' :: '/' :: rest => itemsFrom fuel true (.segments :: items) (rest.dropWhile (· = '/'))
        | atStart, s => itemsFrom fuel false (.star atStart :: items) s
      else
        let (item, rest) := single c s
        itemsFrom fuel false (item :: items) rest

def parse (s : List Char) : List Item := itemsFrom (s.length + 1) true [] s

end CssExtract.Glob
