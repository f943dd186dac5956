import CssExtract.Text.Position

namespace CssExtract.Styled

inductive Severity
  | error
  | warning
  | info
deriving DecidableEq, Repr

def Severity.label : Severity → String
  | .error => "ERROR"
  | .warning => "WARNING"
  | .info => "INFO"

def Severity.ofLabel? (label : String) : Option Severity :=
  [Severity.error, .warning, .info].find? (·.label = label)

structure Diagnostic where
  code : String
  severity : Severity
  message : String
  loc : Option Location
  fix : Option String
deriving DecidableEq, Repr

def Diagnostic.isError (d : Diagnostic) : Bool := d.severity = .error

def Diagnostic.isWarning (d : Diagnostic) : Bool := d.severity = .warning

def Diagnostic.render (d : Diagnostic) : String :=
  let place := match d.loc with
    | some loc => " [" ++ loc.render ++ "]"
    | none => ""
  d.severity.label ++ place ++ ": " ++ d.message

end CssExtract.Styled
