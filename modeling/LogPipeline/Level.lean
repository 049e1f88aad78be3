import LogPipeline.Text.Blank
/-!
# Levels

The four severities of a log entry, their order, the texts that name them and
the reading of such a text.
-/

namespace LogPipeline

/-- Severity of a log entry, from least to most severe. -/
inductive Level where
  | debug
  | info
  | warn
  | error
  deriving DecidableEq, Repr

namespace Level

def all : List Level := [debug, info, warn, error]

def ordinal : Level → Nat
  | debug => 0
  | info => 1
  | warn => 2
  | error => 3

def ofOrdinal? : Nat → Option Level
  | 0 => some debug
  | 1 => some info
  | 2 => some warn
  | 3 => some error
  | _ => none

instance : LE Level := ⟨fun a b => a.ordinal ≤ b.ordinal⟩

instance (a b : Level) : Decidable (a ≤ b) :=
  inferInstanceAs (Decidable (a.ordinal ≤ b.ordinal))

instance : Ord Level := ⟨fun a b => compare a.ordinal b.ordinal⟩

/-- The name of a level in capitals. -/
def name : Level → String
  | debug => "DEBUG"
  | info => "INFO"
  | warn => "WARN"
  | error => "ERROR"

/-- The name of a level filled up to the five columns it has in a line. -/
def label : Level → String
  | debug => "DEBUG"
  | info => "INFO "
  | warn => "WARN "
  | error => "ERROR"

/-- The name of a level in a configuration. -/
def key : Level → String
  | debug => "debug"
  | info => "info"
  | warn => "warn"
  | error => "error"

def ofKey? (s : String) : Option Level := all.find? (·.key == s)

/-- The name of a level with its first letter in capitals. -/
def title : Level → String
  | debug => "Debug"
  | info => "Info"
  | warn => "Warn"
  | error => "Error"

/-- Reads a level's name in any case of letters, with white space around it and
with `warning` for `warn`; a text that is no level comes back trimmed and in
small letters. -/
def parse (s : String) : Except String Level :=
  let word := (Text.trim s).map Char.toLower
  if word = "warning" then .ok warn
  else
    match ofKey? word with
    | some l => .ok l
    | none => .error word

def unknownMessage (word : String) : String := "unknown log level '" ++ word ++ "'"

@[simp] theorem ofOrdinal?_ordinal (l : Level) : ofOrdinal? l.ordinal = some l := by
  cases l <;> rfl

@[simp] theorem ofKey?_key (l : Level) : ofKey? l.key = some l := by
  cases l <;> decide

theorem length_label (l : Level) : l.label.length = 5 := by
  cases l <;> decide

end Level

end LogPipeline
