import CssExtract.Digest.Sha1
import CssExtract.Files.Path
import CssExtract.Number.Base36
import CssExtract.Styled.Options
import CssExtract.Text.Digit
import CssExtract.Text.Lower

namespace CssExtract.Styled

open Text

def slugify (s : String) : String := String.ofList (Base36.write (Digest.leading s.toUTF8.toList))

def isCssPart (c : Char) : Bool :=
  c.isAlphanum || c = '-' || c = '_' || (decide (0xA0 ≤ c.toNat) && decide (c.toNat ≤ 0xFFFF))

/-- Replaces what cannot stand in an identifier, and then a digit that cannot start one. -/
def cssIdentifier (s : String) : String :=
  match s.toList.map fun c => if isCssPart c then c else '_' with
  | [] => ""
  | c :: cs => String.ofList ((if isDigit c then '_' else c) :: cs)

def relativeName (filename root : Option String) : String :=
  match filename.filter (!·.isEmpty) with
  | none => "unknown"
  | some name =>
    let path := Path.ofString name
    match root.filter (!·.isEmpty) with
    | none => path.toString
    | some root => ((path.below? (Path.ofString root)).getD path).toString

structure Names where
  className : String
  slug : String
deriving DecidableEq, Repr

def classNameValues (slug displayName relative : String) (idx : Int) : Entries String :=
  let path := Path.ofString relative
  [("hash", slug), ("title", displayName), ("index", toString idx), ("file", relative),
    ("ext", path.extension), ("name", path.stem), ("dir", path.parent.name)]

def slugOf (displayName relative : String) (idx : Int) : String :=
  cssIdentifier (String.ofList ((displayName.toList.take 1).flatMap lower) ++
    slugify (relative ++ ":" ++ toString idx))

def namesOf (displayName : String) (idx : Int) (options : Options) (filename : Option String) : Names :=
  let relative := relativeName filename options.root
  let slug := slugOf displayName relative idx
  let values := classNameValues slug displayName relative idx
  let className := match options.classNaming with
    | .default => if options.displayName then cssIdentifier displayName ++ "_" ++ slug else slug
    | .pattern text => cssIdentifier (fillWith values text)
    | .custom generate => cssIdentifier (generate slug displayName values)
  ⟨className, slug⟩

end CssExtract.Styled
