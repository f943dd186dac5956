namespace CssExtract.Glob

def product (xs ys : List (List Char)) : List (List Char) := xs.flatMap fun x => ys.map (x ++ ·)

def numberWidth (s : List Char) : Nat :=
  let sign := if s.head? = some '-' then 1 else 0
  match ((s.drop sign).takeWhile Char.isDigit).length with
  | 0 => 0
  | n => sign + n

def natOf (s : List Char) : Nat := s.foldl (fun n c => 10 * n + (c.toNat - 48)) 0

def intOf (s : List Char) : Int :=
  match s with
  | '-' :: ds => -(natOf ds : Int)
  | ds => natOf ds

def writePadded (width : Nat) (n : Int) : List Char :=
  let sign := if n < 0 then ['-'] else []
  let digits := Nat.toDigits 10 n.natAbs
  sign ++ List.replicate (width - sign.length - digits.length) '0' ++ digits

def stepsBetween (first last : Int) (step : Nat) : List Int :=
  let step := if step = 0 then 1 else step
  let count := (last - first).natAbs / step + 1
  (List.range count).map fun n =>
    if first < last then first + (n * step : Nat) else first - (n * step : Nat)

def isPadded (s : List Char) : Bool :=
  let digits := if s.head? = some '-' then s.tail else s
  1 < digits.length && digits.head? = some '0'

def integerRange (first last : List Char) (step : Nat) : List (List Char) :=
  let width := if isPadded first || isPadded last then max first.length last.length else 0
  (stepsBetween (intOf first) (intOf last) step).map (writePadded width)

/-- The backslash, which lies between the capital and the small letters, is left out of its place. -/
def letterRange (first last : Char) (step : Nat) : List (List Char) :=
  (stepsBetween first.toNat last.toNat step).map fun n =>
    if n = 92 then [] else [Char.ofNat n.toNat]

def rangeEnd? (s : List Char) : Option (Nat × List Char) :=
  match s with
  | '}' :: rest => some (1, rest)
  | '.' :: '.' :: s =>
    let step := s.take (numberWidth s)
    match step, s.drop step.length with
    | _ :: _, '}' :: rest => some ((intOf step).natAbs, rest)
    | _, _ => none
  | _ => none

def range? (s : List Char) : Option (List (List Char) × List Char) :=
  let first := s.take (numberWidth s)
  match first, s.drop first.length with
  | _ :: _, '.' :: '.' :: s =>
    let last := s.take (numberWidth s)
    if last.isEmpty then none
    else (rangeEnd? (s.drop last.length)).map fun (step, rest) => (integerRange first last step, rest)
  | [], a :: '.' :: '.' :: b :: s =>
    if a.isAlpha && b.isAlpha then
      (rangeEnd? s).map fun (step, rest) => (letterRange a b step, rest)
    else none
  | _, _ => none

structure Items where
  texts : List (List Char)
  due : Bool
  comma : Bool

mutual

/-- Expands a text. Inside a group it ends at a comma or a closing brace, and fails without one.
`total` is the length of the whole text and `dollar` says that a dollar sign stands before. -/
def literals (total : Nat) : Nat → Bool → Nat → Bool → List (List Char) → List Char →
    Option (List (List Char) × List Char)
  | 0, _, _, _, texts, s => some (texts, s)
  | _ + 1, inside, _, _, texts, [] => if inside then none else some (texts, [])
  | fuel + 1, inside, depth, dollar, texts, c :: s =>
    let plain := fun () => literals total fuel inside depth (c == '$') (product texts [[c]]) s
    if c = '{' && !dollar then
      match s with
      | [] => plain ()
      | _ :: _ =>
        match (range? s).or (group total fuel (depth + 1) ⟨[], true, false⟩ s) with
        | some (values, rest) => literals total fuel inside depth false (product texts values) rest
        | none => plain ()
    else if inside && (c = ',' || c = '}') then some (texts, c :: s)
    else plain ()

/-- Expands a group after its opening brace. An outermost group goes on over a closing brace as
long as it has no comma, but for empty braces that start the text. -/
def group (total : Nat) : Nat → Nat → Items → List Char → Option (List (List Char) × List Char)
  | 0, _, _, _ => none
  | _ + 1, _, _, [] => none
  | fuel + 1, depth, items, c :: s =>
    let due := if items.due then [[]] else []
    if c = '}' && (depth ≠ 1 || items.comma || total = s.length + 2) then
      let texts := items.texts ++ due
      some (if items.comma then texts else texts.map fun t => '{' :: t ++ ['}'], s)
    else if c = ',' then
      group total fuel depth ⟨items.texts ++ due, true, true⟩ s
    else if c = '}' then
      match s with
      | [] => none
      | _ :: _ =>
        match literals total fuel true depth false [[]] s with
        | some (values, rest) =>
          let texts := if items.texts.isEmpty then [[c]] else product items.texts [[c]]
          group total fuel depth ⟨product texts values, false, items.comma⟩ rest
        | none => none
    else
      match literals total fuel true depth false [[]] (c :: s) with
      | some (values, rest) => group total fuel depth ⟨items.texts ++ values, false, items.comma⟩ rest
      | none => none

end

/-- The texts that a pattern with braces stands for. Every step of the expansion reads a
character, or follows one that does. -/
def expandBraces (s : List Char) : List (List Char) :=
  match literals s.length (2 * s.length + 2) false 0 false [[]] s with
  | some (texts, _) => texts
  | none => [s]

end CssExtract.Glob
