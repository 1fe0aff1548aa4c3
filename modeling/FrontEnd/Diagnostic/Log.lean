import FrontEnd.Diagnostic.Basic

/-!
A log of diagnostics. Taking the diagnostics out does not make it forget that there were errors.
-/

namespace FrontEnd

structure DiagnosticLog where
  /-- The pending diagnostics, the latest first. -/
  pending : List Diagnostic
  errorCount : Nat
deriving DecidableEq, Inhabited

namespace DiagnosticLog

def empty : DiagnosticLog := ⟨[], 0⟩

def hasErrors (log : DiagnosticLog) : Bool := 0 < log.errorCount

def add (log : DiagnosticLog) (d : Diagnostic) : DiagnosticLog :=
  ⟨d :: log.pending, if d.isError then log.errorCount + 1 else log.errorCount⟩

/-- Takes out the pending diagnostics in the order in which they were added. -/
def drain (log : DiagnosticLog) : List Diagnostic × DiagnosticLog :=
  (log.pending.reverse, { log with pending := [] })

end DiagnosticLog

end FrontEnd
