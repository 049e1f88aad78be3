import LogPipeline.Line
/-!
# Print sinks

Where lines go while nothing is dumped: to standard output in the colours of
their levels, or to a recorder as they are. A sink may refuse to go on, which
ends the consumer that uses it.
-/

namespace LogPipeline

/-- What a sink writes to. -/
inductive Channel where
  | standardOutput
  | recorder (id : Nat)
  deriving DecidableEq, Repr

/-- What a sink has written. -/
inductive Printed where
  | line (channel : Channel) (level : Level) (text : String)
  | flush (channel : Channel)
  deriving DecidableEq, Repr

def Printed.channel : Printed → Channel
  | line c _ _ => c
  | flush c => c

/-- A destination for rendered lines. -/
structure Sink where
  channel : Channel
  /-- Flushes are recorded. -/
  keepsFlushes : Bool
  /-- Whether printing panics while the channel holds so many records. -/
  panics : Nat → Bool

namespace Sink

def console : Sink := ⟨.standardOutput, false, fun _ => false⟩

def recorder (id : Nat) : Sink := ⟨.recorder id, false, fun _ => false⟩

def textOf (s : Sink) (e : Entry) : String :=
  match s.channel with
  | .standardOutput => e.level.colourise e.render
  | .recorder _ => e.render

end Sink

end LogPipeline
