import CssExtract.Command.Footprint

namespace CssExtract

def realPlace (parts : List String) : IO Place := do
  return (Path.ofString (← IO.FS.realPath (Path.toString ⟨"/", parts⟩)).toString).parts

def probe (parts : List String) : IO (List (Place × Entry)) := do
  match parts.getLast? with
  | none | some ".." => return []
  | some name =>
    try
      let here := (← realPlace parts.dropLast) ++ [name]
      let place ← realPlace here
      let path := Path.toString ⟨"/", place⟩
      let entry ← try pure (.file (← IO.FS.readBinFile path).toList) catch _ => pure .directory
      return (place, entry) :: (if place = here then [] else [(here, .link path)])
    catch _ => return []

/-- Looks at paths, those of the directories above each included, until they lead to no new ones. -/
def explore (words : List String) : Nat → List (List String) → Tree → IO Tree
  | 0, _, t => return t
  | rounds + 1, seen, t => do
    let paths := (Command.footprint t words).flatMap fun p =>
      (Path.ancestors ⟨"/", t.absolute p⟩).map Path.parts
    let unseen := (paths.filter (· ∉ seen)).eraseDups
    if unseen.isEmpty then return t
    let found ← unseen.mapM probe
    explore words rounds (unseen ++ seen) { t with entries := t.entries ++ found.flatten }

end CssExtract

open CssExtract in
def main (words : List String) : IO UInt32 := do
  let here := (← IO.FS.realPath ".").toString
  let t ← explore words 16 [] { workingDirectory := (Path.ofString here).parts }
  let (stop, output) := Command.run t words
  output.files.forM fun (path, text) => IO.FS.writeFile path text
  IO.print output.stdout
  IO.eprint output.stderr
  if let some message := stop.message? then IO.eprintln message
  return stop.exitCode.toUInt32
