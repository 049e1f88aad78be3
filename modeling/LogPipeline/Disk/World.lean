import LogPipeline.Disk.Basic
/-!
# The world of a running log

The disk together with what may vary from run to run: the readings of the
clock, the time zone, and the outcome of each file operation. A run meets one
reading after the other and one outcome after the other. In a calm world every
outcome is left to the disk, and local clocks show the time of the Unix clock.
-/

namespace LogPipeline

/-- How a file operation goes. -/
inductive Outcome where
  | regular
  /-- It fails before it has done anything. -/
  | failing
  /-- A write fails after that many bytes. -/
  | torn (bytes : Nat)
  deriving DecidableEq, Repr

/-- The disk, the clock, the time zone and the outcomes still to come. -/
structure World where
  disk : Disk
  clock : Nat → Nanos
  readings : Nat
  /-- By how many seconds local clocks are ahead of the Unix clock at an instant. -/
  zone : Seconds → Int
  outcomes : Nat → Outcome
  operations : Nat

/-- The text of a failure that does not come from the disk. -/
def outsideFailure : IoError := .device "Input/output error (os error 5)"

namespace World

/-- A world in which no operation fails but for the disk. -/
def calm (disk : Disk) (clock : Nat → Nanos) : World :=
  { disk, clock, readings := 0, zone := fun _ => 0, outcomes := fun _ => .regular,
    operations := 0 }

/-- The time the clock shows next. -/
def now (w : World) : Nanos := w.clock w.readings

/-- The local time that is shown next. -/
def localNow (w : World) : LocalTime := ⟨w.now.seconds, w.zone w.now.seconds⟩

def tick (w : World) : World := { w with readings := w.readings + 1 }

def outcome (w : World) : Outcome := w.outcomes w.operations

/-- The world after an operation has met its outcome. -/
def proceed (w : World) : World := { w with operations := w.operations + 1 }

/-- Opens a file for appending, and makes it if it is missing. -/
def openAppend (w : World) (p : Path) : Except IoError Place × World :=
  if w.outcome ≠ .regular then (.error outsideFailure, w.proceed)
  else
    match w.disk.fileTarget p with
    | .error e => (.error e, w.proceed)
    | .ok place =>
      match w.disk.node? place with
      | some _ => (.ok place, w.proceed)
      | none =>
        (.ok place, { w.proceed.tick with disk := w.disk.put place (.file [] w.now) })

/-- Adds bytes to the end of an open file, as many as it takes. -/
def addBytes (w : World) (place : Place) (bytes : Bytes) : World :=
  match w.disk.node? place with
  | some (.file contents _) =>
    { w.tick with disk := w.disk.put place (.file (contents ++ bytes) w.now) }
  | _ => w

/-- Appends bytes to an open file. Nothing is asked of the file for no bytes. -/
def append (w : World) (place : Place) (bytes : Bytes) : Except IoError Unit × World :=
  if bytes = [] then (.ok (), w)
  else
    match w.outcome with
    | .failing => (.error outsideFailure, w.proceed)
    | .torn n => (.error outsideFailure, w.proceed.addBytes place (bytes.take n))
    | .regular =>
      if w.disk.node? place = some (.device false) then (.error .noSpace, w.proceed)
      else (.ok (), w.proceed.addBytes place bytes)

def size (w : World) (place : Place) : Except IoError Nat × World :=
  if w.outcome ≠ .regular then (.error outsideFailure, w.proceed)
  else
    match w.disk.node? place with
    | some (.file contents _) => (.ok contents.length, w.proceed)
    | _ => (.ok 0, w.proceed)

def rename (w : World) (source target : Path) : Except IoError Unit × World :=
  if w.outcome ≠ .regular then (.error outsideFailure, w.proceed)
  else
    match w.disk.rename source target with
    | .ok disk => (.ok (), { w.proceed with disk })
    | .error e => (.error e, w.proceed)

def list (w : World) (p : Path) : Except IoError (List Place) × World :=
  if w.outcome ≠ .regular then (.error outsideFailure, w.proceed)
  else
    match w.disk.directoryAt p with
    | .ok place => (.ok (w.disk.children place), w.proceed)
    | .error e => (.error e, w.proceed)

/-- Removes a file; a directory stays. -/
def removeFile (w : World) (place : Place) : Except IoError Unit × World :=
  if w.outcome ≠ .regular then (.error outsideFailure, w.proceed)
  else
    match w.disk.node? place with
    | some .directory => (.error .isADirectory, w.proceed)
    | some _ => (.ok (), { w.proceed with disk := w.disk.erase place })
    | none => (.error .notFound, w.proceed)

end World

end LogPipeline
