import FrontEnd.Position

/-!
Diagnostics: what a run has to report, each on a line of its own when shown.
-/

namespace FrontEnd

inductive Severity where
  | info
  | warning
  | error
deriving DecidableEq, Inhabited

def Severity.name : Severity → String
  | info => "info"
  | warning => "warning"
  | error => "error"

/-- The part of the program that a diagnostic comes from. -/
inductive Origin where
  | driver
  | system
  | tokenize
  | parse
  | typecheck
deriving DecidableEq, Inhabited

def Origin.name : Origin → String
  | driver => "driver"
  | system => "system"
  | tokenize => "tokenize"
  | parse => "parse"
  | typecheck => "typecheck"

structure Diagnostic where
  severity : Severity
  origin : Origin
  /-- The source that it is about; empty if it is about none. -/
  source : String
  pos : Position
  message : String
deriving DecidableEq, Inhabited

namespace Diagnostic

/-- An error that is about no source. -/
def error (origin : Origin) (message : String) : Diagnostic :=
  ⟨.error, origin, "", .nowhere, message⟩

def withSource (d : Diagnostic) (source : String) : Diagnostic := { d with source }

def atPosition (d : Diagnostic) (pos : Position) : Diagnostic := { d with pos }

def hasPosition (d : Diagnostic) : Bool := !d.pos.isNowhere

def isError (d : Diagnostic) : Bool := d.severity = .error

end Diagnostic

end FrontEnd
