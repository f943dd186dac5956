import CssExtract.Styled.Naming

namespace CssExtract.Styled

structure Variables where
  next : Nat := 0
  ids : List ((String × String) × String) := []
deriving DecidableEq, Repr

def units : List String := [
    "em", "ex", "cap", "ch", "ic", "rem", "lh", "rlh", "vw", "vh", "vi", "vb", "vmin", "vmax",
    "cm", "mm", "Q", "in", "pt", "pc", "px", "deg", "grad", "rad", "turn", "s", "ms", "Hz", "kHz",
    "dpi", "dpcm", "dppx", "x", "fr"
  ]

def unitAt (s : List Char) : List Char :=
  if s.head? = some '%' then ['%']
  else
    let word := s.takeWhile Text.isWord
    if String.ofList word ∈ units then word else []

def processorName : String := "StyledProcessor"

def variableContext (displayName slug source unit precedingCss : String) : VariableContext :=
  ⟨displayName, slug, precedingCss, processorName, source, unit, slugify (source ++ unit)⟩

def VariableContext.values (c : VariableContext) : Entries String :=
  [("componentName", c.componentName), ("componentSlug", c.componentSlug),
    ("precedingCss", c.precedingCss), ("processor", c.processor), ("source", c.source),
    ("unit", c.unit), ("valueSlug", c.valueSlug)]

namespace Variables

def allocate : StateM Variables Nat := fun v => (v.next, { v with next := v.next + 1 })

/-- The value of a placeholder; each `index` takes a new index. -/
def placeholder (c : VariableContext) (name : String) : StateM Variables String := do
  if name = "index" then return toString (← allocate)
  else return (c.values.get? name).getD ""

def customId (naming : VariableNaming) (c : VariableContext) : StateM Variables (Option String) := do
  match naming with
  | .default => return none
  | .pattern text => return some (← fill (placeholder c) (pieces text))
  | .custom generate =>
    let v ← get
    let (id, next) := (generate c).run v.next
    set { v with next := next }
    return some id

/-- The id of an expression with a unit. A default id is kept for the next time; others are left
to the naming. -/
def idFor (naming : VariableNaming) (c : VariableContext) : StateM Variables String := do
  match (← get).ids.lookup (c.source, c.unit) with
  | some id => return id
  | none =>
    match (← customId naming c).filter (!·.isEmpty) with
    | some id => return cssIdentifier id
    | none =>
      let id := c.componentSlug ++ "-" ++ toString (← allocate)
      modify fun v => { v with ids := v.ids ++ [((c.source, c.unit), id)] }
      return id

end Variables

end CssExtract.Styled
