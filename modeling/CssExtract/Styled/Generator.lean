import CssExtract.Entries

namespace CssExtract.Styled

structure VariableContext where
  componentName : String
  componentSlug : String
  precedingCss : String
  processor : String
  source : String
  unit : String
  valueSlug : String
deriving Repr

/-- What a function of a context does: it may read the next index any number of times, each time
another one, and then gives its result. -/
inductive Reading
  | done (result : String)
  | readIndex (next : Nat → Reading)

def Reading.run : Reading → Nat → String × Nat
  | .done result, index => (result, index)
  | .readIndex next, index => (next index).run (index + 1)

inductive VariableNaming
  | default
  | pattern (text : String)
  | custom (generate : VariableContext → Reading)

inductive ClassNaming
  | default
  | pattern (text : String)
  | custom (generate : String → String → Entries String → String)

inductive Piece
  | literal (c : Char)
  | placeholder (name : String)
deriving DecidableEq, Repr

/-- The pieces of a pattern. A placeholder runs from a `[` to the nearest `]`, on one line; the
next `pending` characters are part of the last one. -/
def piecesFrom : Nat → List Char → List Piece
  | _, [] => []
  | pending + 1, _ :: s => piecesFrom pending s
  | 0, c :: s =>
    let name := s.takeWhile fun c => c ≠ ']' && c ≠ '\n'
    if c = '[' && (s.drop name.length).head? = some ']' then
      .placeholder (String.ofList name) :: piecesFrom (name.length + 1) s
    else .literal c :: piecesFrom 0 s

def pieces (pattern : String) : List Piece := piecesFrom 0 pattern.toList

def fill {m : Type → Type} [Monad m] (value : String → m String) : List Piece → m String
  | [] => pure ""
  | .literal c :: rest => do return String.singleton c ++ (← fill value rest)
  | .placeholder name :: rest => do
    let text ← value name
    return text ++ (← fill value rest)

def fillWith (values : Entries String) (pattern : String) : String :=
  Id.run (fill (fun name => pure ((values.get? name).getD "")) (pieces pattern))

end CssExtract.Styled
