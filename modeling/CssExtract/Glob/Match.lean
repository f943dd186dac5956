import CssExtract.Glob.Brace
import CssExtract.Glob.Pattern

namespace CssExtract.Glob

structure Spot where
  atStart : Bool
  rest : List Char
deriving DecidableEq

def Spot.next? (p : Spot) : Option (Char × Spot) :=
  match p.rest with
  | [] => none
  | c :: rest => some (c, ⟨c = '/', rest⟩)

def Spot.endsSegment (p : Spot) : Bool := p.rest.head?.all (· = '/')

def Spot.isHidden (p : Spot) : Bool := p.atStart && p.rest.head? = some '.'

def Spot.isDotSegment (p : Spot) : Bool :=
  p.atStart && [['.'], ['.', '.']].contains (p.rest.takeWhile (· ≠ '/'))

def afterSome (atStart : Bool) : List Char → List Spot
  | [] => [⟨atStart, []⟩]
  | c :: rest => ⟨atStart, c :: rest⟩ :: (if c = '/' then [] else afterSome false rest)

def afterStar (needsChar : Bool) (p : Spot) : List Spot :=
  if p.isHidden || (needsChar && p.endsSegment) then [] else afterSome p.atStart p.rest

def afterChar (passes : Char → Bool) (p : Spot) : List Spot :=
  match p.next? with
  | some (c, next) => if c ≠ '/' && !p.isHidden && passes c then [next] else []
  | none => []

def afterSlashes : List Char → List Spot
  | [] => []
  | c :: rest => if c = '/' then ⟨true, rest⟩ :: afterSlashes rest else []

def afterSegments (atStart : Bool) : List Char → List Spot
  | [] => []
  | c :: rest =>
    if atStart && c = '.' then []
    else if c = '/' then ⟨true, rest⟩ :: afterSegments true rest
    else afterSegments false rest

def showsAll (atStart : Bool) : List Char → Bool
  | [] => true
  | c :: rest => !(atStart && c = '.') && showsAll (c = '/') rest

/-- The spots that can be reached by repeating a step that goes forward: `found` are those so far
and `latest` the last of them to be found. -/
def closure (step : Spot → List Spot) : Nat → List Spot → List Spot → List Spot
  | 0, found, _ => found
  | fuel + 1, found, latest =>
    let forward (p : Spot) := (step p).filter (·.rest.length < p.rest.length)
    let next := ((latest.flatMap forward).filter (· ∉ found)).eraseDups
    if next.isEmpty then found else closure step fuel (found ++ next) next

mutual

def opensWithDot : List Item → Bool
  | .char c :: _ => c = '.'
  | .group times alternatives :: rest =>
    anyOpensWithDot alternatives || ((times = .optional || times = .many) && opensWithDot rest)
  | _ => false

def anyOpensWithDot : List (List Item) → Bool
  | [] => false
  | items :: rest => opensWithDot items || anyOpensWithDot rest

end

mutual

def reach : List Item → Spot → List Spot
  | [], p => [p]
  | item :: rest, p => ((reachItem item p).flatMap (reach rest)).eraseDups

def reachItem : Item → Spot → List Spot
  | .char x, p =>
    match p.next? with
    | some (c, next) => if c = x then [next] else []
    | none => []
  | .slashes, p => afterSlashes p.rest
  | .anyChar, p => afterChar (fun _ => true) p
  | .oneOf set, p => afterChar set.contains p
  | .star needsChar, p => afterStar needsChar p
  | .segments, p => p :: afterSegments p.atStart p.rest
  | .remainder, p => if showsAll p.atStart p.rest then [⟨false, []⟩] else []
  | .group times alternatives, p =>
    if p.isDotSegment then []
    else match times with
      | .once => reachAny alternatives p
      | .optional => p :: reachAny alternatives p
      | .many => closure (reachAny alternatives) p.rest.length [p] [p]
      | .atLeastOnce =>
        let once := (reachAny alternatives p).eraseDups
        closure (reachAny alternatives) p.rest.length once once
  | .except needsChar alternatives, p =>
    let excluded := reachAny alternatives p
    (afterStar needsChar p).filter (· ∉ excluded)
  | .never, _ => []

def reachAny : List (List Item) → Spot → List Spot
  | [], _ => []
  | items :: rest, p =>
    (if p.isHidden && !opensWithDot items then [] else reach items p) ++ reachAny rest p

end

def matchesItems (items : List Item) (path : List Char) : Bool :=
  (reach items ⟨true, path⟩).any fun p => p.rest.all (· = '/')

def matchesPattern (pattern path : List Char) : Bool :=
  (expandBraces pattern).any fun p => matchesItems (parse p) path

/-- A pattern stands for more patterns than are tried. -/
inductive Fault
  | tooManyPatterns
deriving DecidableEq, Repr

def maxPatterns : Nat := 1000

/-- Whether a pattern, which comes first, matches a path. -/
abbrev Matcher := List Char → List Char → Except Fault Bool

def globmatch : Matcher := fun pattern path =>
  if maxPatterns < (expandBraces pattern).length then .error .tooManyPatterns
  else .ok (matchesPattern pattern path)

end CssExtract.Glob
