import LogPipeline.Intake
import Std.Time.Zoned.Database
/-!
# The program

`main` logs the lines of its standard input. It lets the pipeline run over a
copy of those files that the pipeline may touch: what is there is read before
the first line, and what has changed is written back after every line.
-/

namespace LogPipeline.Main

def now : IO Nanos := do
  return (← Std.Time.Timestamp.now).toNanosecondsSinceUnixEpoch.val

/-- By how many seconds the clock of the system is ahead of the Unix clock at an instant;
a system that does not say is taken to be at Greenwich. -/
def zone : IO (Seconds → Int) := do
  match ← Std.Time.Database.defaultGetLocalZoneRules.toBaseIO with
  | .ok rules =>
    return fun t => (rules.timezoneAt (.ofSecondsSinceUnixEpoch ⟨t⟩)).offset.second.val
  | .error _ => return fun _ => 0

/-- The text of a place as an absolute path. -/
def textOf (place : Place) : String := "/" ++ "/".intercalate place

/-- What the system has at a place, if anything. What exists and cannot be read
as a file is taken for a directory. -/
def probe (place : Place) : IO (Option Node) := do
  if place = ["dev", "full"] then return some (.device false)
  if place = ["dev", "null"] then return some (.device true)
  match ← (IO.FS.realPath (textOf place)).toBaseIO with
  | .error _ => return none
  | .ok _ =>
    match ← (IO.FS.readBinFile (textOf place)).toBaseIO with
    | .ok contents => return some (.file contents.data.toList (← now))
    | .error _ => return some .directory

/-- The disk with what the system has at the end of a path and on the way. -/
def look (d : Disk) (p : Path) : IO Disk := do
  let place := d.placeOf p
  let mut d := d
  for i in List.range place.length do
    let part := place.take (i + 1)
    match ← probe part with
    | some node => d := d.put part node
    | none => d := d.erase part
  return d

/-- An empty disk at the current directory of the system. -/
def currentDisk : IO Disk := do
  let here := toString (← IO.currentDir)
  look ⟨[], (⟨[], []⟩ : Disk).placeOf ⟨here⟩⟩ ⟨here⟩

/-- Gives the system the files of a disk that are not as they were before. -/
def store (before after : Disk) : IO Unit := do
  for (place, _) in before.nodes do
    if (after.node? place).isNone then IO.FS.removeFile (textOf place)
  for (place, node) in after.nodes do
    match node with
    | .file contents _ =>
      if before.node? place ≠ some node then
        IO.FS.writeBinFile (textOf place) ⟨contents.toArray⟩
    | _ => pure ()

/-- Runs a pipeline for a while, at the present time and with the debug switch
file as it is now. Afterwards its files are stored, its lines are printed on
standard output, and its notices go to standard error. -/
def advance (p : Pipeline) (run : Pipeline → Pipeline) : IO Pipeline := do
  let time ← now
  let before ← match p.switchFile with
    | some file => look p.world.disk file
    | none => pure p.world.disk
  let p := run { p with world := { p.world with disk := before, clock := fun _ => time } }
  store before p.world.disk
  for record in p.printed.reverse do
    match record with
    | .line .standardOutput _ text => IO.print text
    | _ => pure ()
  (← IO.getStdout).flush
  for notice in p.notices.reverse do
    if notice.level ≠ .debug then IO.eprintln (notice.level.label ++ " " ++ notice.message)
  return { p with printed := [], notices := [] }

/-- The bytes up to the next newline, with it; fewer at the end of the input. -/
partial def readLine (input : IO.FS.Stream) (line : Bytes) : IO Bytes := do
  match (← input.read 1).data.toList with
  | [] => return line.reverse
  | byte :: _ => if byte = 10 then return (byte :: line).reverse else readLine input (byte :: line)

/-- Logs line after line until the input ends or a line cannot be read. Time
passes for the pipeline when its interval has passed since `last`. -/
partial def forward (input : IO.FS.Stream) (last : Nat) (p : Pipeline) :
    IO (Option Intake.Failure × Pipeline) := do
  match Intake.readLines (← readLine input []) true with
  | [] => return (none, p)
  | none :: _ => return (some .reading, p)
  | some line :: _ =>
    let time ← IO.monoMsNow
    if last + p.interval.toNat ≤ time then
      forward input time (← advance p fun p => (Intake.feed p line).passTime)
    else forward input last (← advance p (Intake.feed · line))

def fail (failure : Intake.Failure) : IO UInt32 := do
  IO.eprintln ("Error: " ++ failure.message)
  return 1

def run (c : Config) (d : Disk) : IO UInt32 := do
  let d ← [c.dumpPath, c.fallback].foldlM look d
  let world := { World.calm d fun _ => 0 with zone := ← zone }
  let p ← advance (Intake.startWith c world) id
  let (failure, p) ← forward (← IO.getStdin) (← IO.monoMsNow) p
  let _ ← advance p Intake.finish
  match failure with
  | some failure => fail failure
  | none => return 0

end LogPipeline.Main

open LogPipeline in
/-- Logs the lines of standard input by the configuration that the first
argument names, or by that of the home directory. -/
def main (args : List String) : IO UInt32 := do
  let home : Path := ⟨(← IO.getEnv "HOME").getD ""⟩
  let file := match args with
    | path :: _ => ⟨path⟩
    | [] => Config.homeFile home
  let d ← Main.look (← Main.currentDisk) file
  match Intake.loadConfig args home d with
  | .error e => Main.fail (.config e)
  | .ok c => Main.run c d
