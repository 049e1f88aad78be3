import LogPipeline.Pipeline.State
/-!
# The registry of a program

A program registers at most one logger for all its parts, and sets up its
diagnostics at most once.
-/

namespace LogPipeline

/-- What a program has registered. -/
structure Registry where
  logger : Option Pipeline
  diagnostics : Bool

namespace Registry

def empty : Registry := ⟨none, false⟩

/-- Makes a logger the one of the program. If there is one already, the new one
is handed back. -/
def install (r : Registry) (logger : Pipeline) : Except Pipeline Registry :=
  match r.logger with
  | none => .ok { r with logger := some logger }
  | some _ => .error logger

/-- Sets up diagnostics, which succeeds once. -/
def setUpDiagnostics? (r : Registry) : Option Registry :=
  if r.diagnostics then none else some { r with diagnostics := true }

end Registry

end LogPipeline
