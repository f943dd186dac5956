import CssExtract.Files.Path
import CssExtract.Glob.Match

namespace CssExtract.Package

def withSlashes (s : String) : String := s.map fun c => if c = '\\' then '/' else c

def fullMask (directory mask : String) : String :=
  ((Path.ofString (withSlashes directory)).join (Path.ofString (withSlashes mask))).collapse.toString

def matchesMask (globmatch : Glob.Matcher) (file directory mask : String) : Except Glob.Fault Bool :=
  globmatch (fullMask directory mask).toList (withSlashes file).toList

end CssExtract.Package
