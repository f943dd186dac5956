import CssExtract.Eval.Graph
import CssExtract.Text.Position

namespace CssExtract.Styled

open Eval

structure Rule where
  selector : String
  cssText : String
  className : String
  displayName : String
  start : Option Position
deriving DecidableEq, Repr

abbrev Rules := Entries Rule

structure ValueCache where
  graph : Graph := {}
  points : Entries Point := []

/-- The class names of a component and of those it extends. The walk ends with an error, and the
names so far, when it comes back to a container. -/
def classChain (g : Graph) : Nat → List Nat → Point → Except (List String) (List String)
  | 0, _, _ => .ok []
  | fuel + 1, seen, p =>
    match p, g.metadata? p with
    | .container id, some (className, base) =>
      if id ∈ seen then .error []
      else match classChain g fuel (id :: seen) base with
        | .ok names => .ok (className :: names)
        | .error names => .error (className :: names)
    | _, _ => .ok []

def ValueCache.classNames (cache : ValueCache) (name : String) : Except (List String) (List String) :=
  match cache.points.get? name with
  | some p => classChain cache.graph (cache.graph.containers.size + 1) [] p
  | none => .ok []

def selectorOf (classNames : List String) : String := String.join (classNames.map ("." ++ ·))

end CssExtract.Styled
