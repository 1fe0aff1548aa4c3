import FrontEnd.Diagnostic.Basic

/-!
Diagnostics as lines of text: source, position, severity and message, in colours on request.
-/

namespace FrontEnd

inductive Coloring where
  /-- Colours on a terminal only. -/
  | auto
  | always
  | never
deriving DecidableEq, Inhabited

def Coloring.usesColors (isTerminal : Bool) : Coloring → Bool
  | auto => isTerminal
  | always => true
  | never => false

namespace Terminal

/-- Stands for the source of a diagnostic that is about none. -/
def programName : String := "zeno"

def bold : String := "\x1b[1m"

def reset : String := "\x1b[0m"

def severityColor : Severity → String
  | .error => "\x1b[1;31m"
  | .warning => "\x1b[1;33m"
  | .info => "\x1b[1;36m"

/-- Text in a style, which colours turn on. -/
def styled (colors : Bool) (style text : String) : String :=
  if colors then style ++ text ++ reset else text

def line (colors : Bool) (d : Diagnostic) : String :=
  let source := if d.source.isEmpty then programName else d.source
  let place := if d.hasPosition then styled colors bold (":" ++ d.pos.text) else ""
  let severity := styled colors (severityColor d.severity) d.severity.name
  styled colors bold source ++ place ++ ": " ++ severity ++ ": " ++ d.message ++ "\n"

def lines (colors : Bool) (ds : List Diagnostic) : String := String.join (ds.map (line colors))

end Terminal

end FrontEnd
