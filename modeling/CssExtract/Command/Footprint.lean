import CssExtract.Command.Run

namespace CssExtract.Command

open Package Styled

variable (t : Tree)

def filePaths (extensions : List String) (p : Path) : List Path :=
  p :: extensions.filterMap p.addExtension?

def indexPaths (extensions : List String) (p : Path) : List Path :=
  extensions.map fun extension => p.child ("index" ++ extension)

def targetPaths (extensions : List String) (target : Path) : List Path :=
  let main := (mainIn? t (target.child manifestName)).map target.child
  target.child manifestName :: (target :: main.toList).flatMap fun p =>
    filePaths extensions p ++ indexPaths extensions p

def importPaths (extensions : List String) (source : Path) : List Path :=
  match t.readText source with
  | .error _ => []
  | .ok text =>
    match Script.parseImports text with
    | .error _ => []
    | .ok imports =>
      (imports.flatMap (·.2)).flatMap fun specifier =>
        (targets source.parent specifier).flatMap (targetPaths t extensions)

def namedPaths (word : String) : List String :=
  word :: ((cutValue word.toList).2.map String.ofList).toList

/-- Any word may name a source file or settings. -/
def footprint (words : List String) : List Path :=
  let named := words.flatMap namedPaths
  let files := named.filter (isFile t)
  let extensions := files.flatMap fun path =>
    match Settings.load t path with
    | .ok settings => settings.extensions.filterMap Settings.string?
    | .error _ => []
  let manifests := t.entries.flatMap fun (place, _) =>
    (Path.ancestors ⟨"/", place⟩).map (·.child manifestName)
  named.map Path.ofString ++ manifests ++
    (files.filterMap fun path => (t.resolve (Path.ofString path)).toOption).flatMap
      (importPaths t (defaultExtensions ++ extensions))

end CssExtract.Command
