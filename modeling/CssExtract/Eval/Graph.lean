import CssExtract.Eval.Value

namespace CssExtract.Eval

/-- A value in a graph: a scalar or the number of a container. -/
inductive Point
  | scalar (s : Scalar)
  | container (id : Nat)
deriving Inhabited

inductive Container
  | array (items : List Point)
  | object (entries : Entries Point)
  | styled (className : String) (base : Point)
  | carrier (metadata : Point)
deriving Inhabited

structure Graph where
  containers : Array Container := #[]
deriving Inhabited

namespace Graph

variable (g : Graph)

def container? : Point → Option Container
  | .container id => g.containers[id]?
  | .scalar _ => none

def insert (c : Container) : Nat × Graph := (g.containers.size, ⟨g.containers.push c⟩)

def setEntry (id : Nat) (key : String) (value : Point) : Graph :=
  match g.containers[id]? with
  | some (.object entries) => ⟨g.containers.setIfInBounds id (.object (entries.set key value))⟩
  | _ => g

def metadata? (p : Point) : Option (String × Point) :=
  match g.container? p with
  | some (.styled className base) => some (className, base)
  | some (.carrier metadata) =>
    match g.container? metadata with
    | some (.styled className base) => some (className, base)
    | _ => none
  | some (.object entries) =>
    match (Entries.get? metadataKey entries).bind g.container? with
    | some (.object metadata) =>
      match Entries.get? "className" metadata with
      | some (.scalar (.string className)) =>
        some (className, (Entries.get? "extends" metadata).getD (.scalar .null))
      | _ => none
    | _ => none
  | _ => none

/-- Spreads a value out below the containers of `path`, innermost first. A path repeats no
container, so its length bounds the depth. -/
def spread : Nat → List Nat → Point → Value
  | _, _, .scalar s => .scalar s
  | 0, _, .container _ => .undefined
  | fuel + 1, path, .container id =>
    match path.idxOf? id with
    | some level => .cycle (level + 1)
    | none =>
      let below := spread fuel (id :: path)
      match g.containers[id]? with
      | some (.array items) => .array (items.map below)
      | some (.object entries) => .object (entries.map fun (k, v) => (k, below v))
      | some (.styled className base) => .styled className (below base)
      | some (.carrier metadata) => .carrier (below metadata)
      | none => .undefined

def toValue (p : Point) : Value := g.spread (g.containers.size + 1) [] p

def metadataValue (p : Point) : Value :=
  match g.metadata? p with
  | some (className, base) =>
    .styled className (g.spread (g.containers.size + 1) [g.containers.size] base)
  | none => .null

end Graph

mutual

def Graph.ofValue (g : Graph) : Value → Point × Graph
  | .scalar s => (.scalar s, g)
  | .array items =>
    let (points, g) := g.ofValues items
    let (id, g) := g.insert (.array points)
    (.container id, g)
  | .object entries =>
    let (points, g) := g.ofEntries entries
    let (id, g) := g.insert (.object points)
    (.container id, g)
  | .styled className base =>
    let (base, g) := g.ofValue base
    let (id, g) := g.insert (.styled className base)
    (.container id, g)
  | .carrier metadata =>
    let (metadata, g) := g.ofValue metadata
    let (id, g) := g.insert (.carrier metadata)
    (.container id, g)
  | .cycle _ => (.scalar .undefined, g)

def Graph.ofValues (g : Graph) : List Value → List Point × Graph
  | [] => ([], g)
  | v :: vs =>
    let (p, g) := g.ofValue v
    let (ps, g) := g.ofValues vs
    (p :: ps, g)

def Graph.ofEntries (g : Graph) : List (String × Value) → Entries Point × Graph
  | [] => ([], g)
  | (k, v) :: es =>
    let (p, g) := g.ofValue v
    let (ps, g) := g.ofEntries es
    ((k, p) :: ps, g)

end

end CssExtract.Eval
