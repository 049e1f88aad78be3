import LogPipeline.Disk.Basic
import LogPipeline.Level
/-!
# Failures and notices of dumping

What can go wrong while entries are written to files, and what the pipeline
reports of its own work apart from the log: each notice has a severity, a
message and named fields.
-/

namespace LogPipeline

/-- A failure while entries are written to files. -/
inductive DumpError where
  | openDump (path : Path) (cause : IoError)
  | writeDump (path : Path) (cause : IoError)
  | renameDump (source target : Path) (cause : IoError)
  | writeFallback (path : Path) (cause : IoError)
  deriving DecidableEq, Repr

namespace DumpError

def message : DumpError → String
  | openDump path _ => "failed to open dump file " ++ path.text
  | writeDump path _ => "failed to write dump file " ++ path.text
  | renameDump source target _ =>
    "failed to rename dump file " ++ source.text ++ " to " ++ target.text
  | writeFallback path _ => "failed to write fallback file " ++ path.text

def cause : DumpError → IoError
  | openDump _ e | writeDump _ e | renameDump _ _ e | writeFallback _ e => e

end DumpError

/-- A failure to start the consumer. -/
inductive StartError where
  | alreadyRunning
  | spawning (cause : IoError)
  deriving DecidableEq, Repr

namespace StartError

def message : StartError → String
  | alreadyRunning => "logger is already running"
  | spawning _ => "failed to spawn the log consumer thread"

def cause? : StartError → Option IoError
  | alreadyRunning => none
  | spawning e => some e

end StartError

/-- What the pipeline reports of its own work. -/
inductive Notice where
  | rotated (archive : Path)
  | expiredRemoved (count : Nat)
  | cleaningFailed (error : IoError)
  | rotationFailed (error : DumpError)
  | spilling (error : DumpError) (pending : Nat) (fallback : Path)
  | lost (error : DumpError) (count : Nat)
  | sizeUnknown (error : IoError)
  | consumerPanicked
  deriving DecidableEq, Repr

namespace Notice

def level : Notice → Level
  | rotated _ | expiredRemoved _ => .debug
  | cleaningFailed _ | rotationFailed _ | spilling .. | sizeUnknown _ => .warn
  | lost .. | consumerPanicked => .error

def message : Notice → String
  | rotated _ => "Rotated dump file"
  | expiredRemoved _ => "Removed expired rotated dump files"
  | cleaningFailed _ => "Failed to clean up rotated dump files"
  | rotationFailed _ => "Failed to rotate dump file"
  | spilling .. => "Dump failed, writing remaining entries to fallback file"
  | lost .. => "Fallback write failed, entries lost"
  | sizeUnknown _ => "Failed to read dump file size"
  | consumerPanicked => "Log consumer thread panicked"

def fields : Notice → List (String × String)
  | rotated archive => [("rotated", archive.text)]
  | expiredRemoved count => [("count", Decimal.natText count)]
  | cleaningFailed e => [("error", e.message)]
  | rotationFailed e => [("error", e.message)]
  | spilling e pending fallback =>
    [("error", e.message), ("pending", Decimal.natText pending), ("fallback", fallback.text)]
  | lost e count => [("error", e.message), ("lost", Decimal.natText count)]
  | sizeUnknown e => [("error", e.message)]
  | consumerPanicked => []

end Notice

end LogPipeline
