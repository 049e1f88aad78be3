import LogPipeline.Config.Basic
/-!
# Fields of a configuration

A configuration as named fields with plain values, which is the form that files
of either format carry. Fields that a file does not name keep their defaults;
a field named twice, under either of its names, is refused.
-/

namespace LogPipeline

/-- A value as a configuration file gives it. -/
inductive Plain where
  | text (s : String)
  | natural (n : Nat)
  | flag (b : Bool)
  | absent
  /-- A name written as the only key of a table with nothing in it. -/
  | variant (name : String)
  /-- A value no field can take. -/
  | other
  deriving DecidableEq, Repr

namespace Plain

def path? : Plain → Option Path
  | text s => some ⟨s⟩
  | _ => none

def word? : Plain → Option UInt64
  | natural n => if n < Nat.pow 2 64 then some (UInt64.ofNat n) else none
  | _ => none

def flag? : Plain → Option Bool
  | flag b => some b
  | _ => none

/-- A name, in either of its two forms. -/
def name? : Plain → Option String
  | text s | variant s => some s
  | _ => none

/-- A value that may be absent. -/
def optional? {α : Type} (read : Plain → Option α) : Plain → Option (Option α)
  | absent => some none
  | v => (read v).map some

end Plain

inductive Field where
  | level
  | showCaller
  | isDump
  | dumpPath
  | dumpSize
  | dumpThreshold
  | dumpInterval
  | emitMode
  | switchFile
  | fallback
  | retention
  deriving DecidableEq, Repr

namespace Field

/-- All fields, in the order they are written. -/
def all : List Field :=
  [level, showCaller, isDump, dumpPath, dumpSize, dumpThreshold, dumpInterval, emitMode,
    switchFile, fallback, retention]

def key : Field → String
  | level => "level"
  | showCaller => "is_show_caller"
  | isDump => "is_dump"
  | dumpPath => "dump_path"
  | dumpSize => "dump_file_size"
  | dumpThreshold => "dump_threshold"
  | dumpInterval => "dump_interval_ms"
  | emitMode => "emit_mode"
  | switchFile => "debug_switch_file"
  | fallback => "fallback_path"
  | retention => "retention_days"

/-- The second name of the interval. -/
def intervalAlias : String := "dump_interval"

def ofKey? (s : String) : Option Field :=
  if s = intervalAlias then some dumpInterval else all.find? (·.key == s)

@[simp] theorem ofKey?_key (f : Field) : ofKey? f.key = some f := by
  cases f <;> decide

end Field

namespace Config

/-- Gives a field a value from a file, if it can take it. -/
def set (c : Config) (f : Field) (v : Plain) : Option Config :=
  match f with
  | .level => (v.name?.bind Level.ofKey?).map fun level => { c with level }
  | .showCaller => v.flag?.map fun showCaller => { c with showCaller }
  | .isDump => v.flag?.map fun isDump => { c with isDump }
  | .dumpPath => v.path?.map fun dumpPath => { c with dumpPath }
  | .dumpSize => v.word?.map fun dumpSize => { c with dumpSize }
  | .dumpThreshold => v.word?.map fun dumpThreshold => { c with dumpThreshold }
  | .dumpInterval => v.word?.map fun dumpInterval => { c with dumpInterval }
  | .emitMode => (v.name?.bind EmitMode.ofKey?).map fun emitMode => { c with emitMode }
  | .switchFile => (Plain.optional? Plain.path? v).map fun switchFile => { c with switchFile }
  | .fallback => v.path?.map fun fallback => { c with fallback }
  | .retention => (Plain.optional? Plain.word? v).map fun retention => { c with retention }

def get (c : Config) : Field → Plain
  | .level => .text c.level.key
  | .showCaller => .flag c.showCaller
  | .isDump => .flag c.isDump
  | .dumpPath => .text c.dumpPath.text
  | .dumpSize => .natural c.dumpSize.toNat
  | .dumpThreshold => .natural c.dumpThreshold.toNat
  | .dumpInterval => .natural c.dumpInterval.toNat
  | .emitMode => .text c.emitMode.key
  | .switchFile => c.switchFile.elim .absent fun p => .text p.text
  | .fallback => .text c.fallback.text
  | .retention => c.retention.elim .absent fun n => .natural n.toNat

/-- A configuration with some fields set one after the other. -/
def setAll (c : Config) : List (Field × Plain) → Option Config
  | [] => some c
  | (f, v) :: rest => (c.set f v).bind fun c => c.setAll rest

/-- The defaults overridden by the fields of a file, each named at most once. -/
def ofFields (fields : List (Field × Plain)) : Option Config :=
  if (fields.map (·.1)).Nodup then default.setAll fields else none

/-- The fields that a file's keys name; other keys are passed over. -/
def knownFields (entries : List (String × Plain)) : List (Field × Plain) :=
  entries.filterMap fun e => (Field.ofKey? e.1).map fun f => (f, e.2)

/-- All fields with their values, in the order they are written. -/
def toFields (c : Config) : List (Field × Plain) := Field.all.map fun f => (f, c.get f)

end Config

end LogPipeline
