import LogPipeline.Config.File
import LogPipeline.Pipeline.Handle
import LogPipeline.Pipeline.Schedule
import LogPipeline.Text.Affix
/-!
# Standard input as a source of entries

The program reads a configuration, starts a pipeline, logs every line of its
standard input at the level that the line itself suggests, and stops the
pipeline at the end of the input, at a line it cannot read, or when it is
interrupted.
-/

namespace LogPipeline.Intake

/-- The level of a raw line, from the severity markers it holds. -/
def guessLevel (line : String) : Level :=
  let has (marker : String) : Bool := Text.hasInfix marker.toList line.toList
  if has "ERROR" then .error
  else if has "WARN" then .warn
  else if has "DEBUG" then .debug
  else .info

/-- The lines that end in a newline, without it, and what is left. -/
def cutLines : Bytes → List Bytes × Bytes
  | [] => ([], [])
  | b :: bytes =>
    match cutLines bytes with
    | (lines, rest) =>
      if b = 10 then ([] :: lines, rest)
      else
        match lines with
        | [] => ([], b :: rest)
        | line :: lines => ((b :: line) :: lines, rest)

/-- A line without the carriage return at its end. -/
def dropReturn (line : Bytes) : Bytes :=
  if line.getLast? = some 13 then line.dropLast else line

/-- The lines of an input, each as text if it is UTF-8. An open input has no
last line without a newline; in an ended one it keeps its carriage return. -/
def readLines (input : Bytes) (ended : Bool) : List (Option String) :=
  let (lines, rest) := cutLines input
  lines.map (fun line => Text.decode? (dropReturn line)) ++
    if ended && !rest.isEmpty then [Text.decode? rest] else []

inductive Ending where
  | inputEnd
  | unreadable
  | interrupted
  deriving DecidableEq, Repr

/-- The lines that are forwarded, and why forwarding ends. An interrupt comes
after a number of lines, if it comes. -/
def forward (interrupt : Option Nat) : List (Option String) → List String × Ending
  | [] => ([], if interrupt = some 0 then .interrupted else .inputEnd)
  | line :: rest =>
    if interrupt = some 0 then ([], .interrupted)
    else
      match line with
      | none => ([], .unreadable)
      | some line =>
        let (lines, ending) := forward (interrupt.map (· - 1)) rest
        (line :: lines, ending)

/-- The handle that logs the lines of standard input. -/
def input : TaggedLogger := ⟨"stdin"⟩

/-- The place in this text from which lines are logged. It stands in a line in place of
the tag when callers are shown, and decides nothing else. -/
def site : CallSite := ⟨"LogPipeline/Intake.lean", 74⟩

/-- The call that logs a line. -/
def lineCall (line : String) : Call := input.log (guessLevel line) [.text line] site

inductive Failure where
  | config (e : ConfigError)
  | reading
  deriving DecidableEq, Repr

def Failure.message : Failure → String
  | config e => e.message
  | reading => "Failed to read standard input"

/-- What a run of the program leaves. -/
structure Result where
  failure : Option Failure
  /-- What was printed, the first first. -/
  printed : List Printed
  world : World

def Result.exitCode (r : Result) : Nat := if r.failure.isSome then 1 else 0

def Result.output (r : Result) : String :=
  String.join (r.printed.filterMap fun
    | .line .standardOutput _ text => some text
    | _ => none)

/-- The configuration that the arguments name, or that of the home directory. -/
def loadConfig (args : List String) (home : Path) (d : Disk) : Except ConfigError Config :=
  match args with
  | path :: _ => Config.load home d ⟨path⟩
  | [] => Config.loadHome home d

/-- A running pipeline with the settings of a configuration. -/
def startWith (c : Config) (w : World) : Pipeline := ((Pipeline.ofConfig c w).perform .start).2

def feed (p : Pipeline) (line : String) : Pipeline := (p.perform (lineCall line)).2

def finish (p : Pipeline) : Pipeline := (p.perform .stop).2

/-- Runs a pipeline over some lines and stops it. -/
def runLines (c : Config) (lines : List String) (w : World) : Pipeline :=
  finish (lines.foldl feed (startWith c w))

def run (args : List String) (home : Path) (lines : List (Option String)) (interrupt : Option Nat)
    (w : World) : Result :=
  match loadConfig args home w.disk with
  | .error e => ⟨some (.config e), [], w⟩
  | .ok c =>
    let (forwarded, ending) := forward interrupt lines
    let p := runLines c forwarded w
    ⟨if ending = .unreadable then some .reading else none, p.printed.reverse, p.world⟩

end LogPipeline.Intake
