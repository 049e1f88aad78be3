import LogPipeline.Pipeline.Call
/-!
# Handles

The calls that a program makes by name: one for each level, and those of a
component that stamps all its entries with one tag.
-/

namespace LogPipeline

namespace Call

def debug (tag : String) (args : List Arg) (site : CallSite) : Call := .log ⟨.debug, tag, args, site⟩

def info (tag : String) (args : List Arg) (site : CallSite) : Call := .log ⟨.info, tag, args, site⟩

def warn (tag : String) (args : List Arg) (site : CallSite) : Call := .log ⟨.warn, tag, args, site⟩

def error (tag : String) (args : List Arg) (site : CallSite) : Call := .log ⟨.error, tag, args, site⟩

/-- The call named for a level. -/
def named : Level → String → List Arg → CallSite → Call
  | .debug => debug
  | .info => info
  | .warn => warn
  | .error => error

end Call

/-- A component's handle on a logger. -/
structure TaggedLogger where
  tag : String
  deriving DecidableEq, Repr

namespace TaggedLogger

/-- The call named for a level, under the component's tag. -/
def named (t : TaggedLogger) (level : Level) (args : List Arg) (site : CallSite) : Call :=
  .named level t.tag args site

def log (t : TaggedLogger) (level : Level) (args : List Arg) (site : CallSite) : Call :=
  .log ⟨level, t.tag, args, site⟩

/-- Queues blocks of verbatim text, which show no tag. -/
def detail (_ : TaggedLogger) (level : Level) (blocks : List (List Arg)) : Call :=
  .detail level blocks

def emptyLine (_ : TaggedLogger) : Call := .emptyLine

end TaggedLogger

end LogPipeline
