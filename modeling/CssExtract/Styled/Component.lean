import CssExtract.Text.Quoted

namespace CssExtract.Styled

inductive Component
  | tag (name : String)
  | function
  /-- A component by its name; a foreign one is known not to be styled. -/
  | reference (name source : String) (foreign : Bool)
deriving DecidableEq, Repr

def Component.describe : Component → String
  | .tag name => "tag " ++ Text.quoted name
  | .function => "function"
  | .reference _ _ foreign => if foreign then "foreign component" else "styled component"

end CssExtract.Styled
