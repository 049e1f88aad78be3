import LogPipeline.Dump.Writer
/-!
# Configuration

The settings of a log pipeline, and their default values.
-/

namespace LogPipeline

/-- How hard a log call tries to queue its entry. -/
inductive EmitMode where
  /-- One attempt; the entry is dropped when the queue is busy. -/
  | bestEffort
  /-- As many attempts as it takes. -/
  | guaranteed
  deriving DecidableEq, Repr

namespace EmitMode

def all : List EmitMode := [bestEffort, guaranteed]

/-- The name of a mode in a configuration. -/
def key : EmitMode → String
  | bestEffort => "best_effort"
  | guaranteed => "guaranteed"

/-- The name of a mode as it is shown to a programmer. -/
def title : EmitMode → String
  | bestEffort => "BestEffort"
  | guaranteed => "Guaranteed"

def ofKey? (s : String) : Option EmitMode := all.find? (·.key == s)

/-- The attempts a log call makes at the queue's lock; none given means any
number. -/
def attempts : EmitMode → UInt32
  | bestEffort => 1
  | guaranteed => 0

@[simp] theorem ofKey?_key (m : EmitMode) : ofKey? m.key = some m := by
  cases m <;> decide

end EmitMode

namespace Default

/-- Queue length that wakes the consumer early. -/
def dumpThreshold : UInt64 := 32 * 1024

/-- Milliseconds between dumps. -/
def dumpInterval : UInt64 := 100

/-- Entries for which room is made when dumping starts. -/
def bufferCapacity : Nat := 64 * 1024

/-- The file whose presence lets debug entries through while dumping. -/
def switchFile : Path := ⟨"debug.sf"⟩

def dumpPath : Path := ⟨"spoollog.log"⟩

end Default

/-- The settings of a log pipeline. -/
structure Config where
  level : Level
  showCaller : Bool
  isDump : Bool
  dumpPath : Path
  dumpSize : UInt64
  dumpThreshold : UInt64
  dumpInterval : UInt64
  emitMode : EmitMode
  switchFile : Option Path
  fallback : Path
  retention : Option UInt64
  deriving DecidableEq, Repr

namespace Config

def default : Config :=
  { level := .debug
    showCaller := false
    isDump := false
    dumpPath := Default.dumpPath
    dumpSize := defaultDumpSize
    dumpThreshold := Default.dumpThreshold
    dumpInterval := Default.dumpInterval
    emitMode := .bestEffort
    switchFile := some Default.switchFile
    fallback := defaultFallback
    retention := none }

/-- The settings with a leading tilde of each path replaced by the home
directory. -/
def expandHome (c : Config) (home : Path) : Config :=
  { c with
    dumpPath := c.dumpPath.expandHome home
    fallback := c.fallback.expandHome home
    switchFile := c.switchFile.map (·.expandHome home) }

/-- The settings with each path written without the pieces that name nothing. -/
def plainPaths (c : Config) : Config :=
  { c with
    dumpPath := c.dumpPath.plain
    fallback := c.fallback.plain
    switchFile := c.switchFile.map Path.plain }

/-- Whether two configurations give the same settings; paths count as the same
when they differ in pieces that name nothing. -/
def sameAs (c other : Config) : Bool := c.plainPaths = other.plainPaths

end Config

end LogPipeline
