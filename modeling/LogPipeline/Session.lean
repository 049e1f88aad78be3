import LogPipeline.Intake

/-!
# A session

The program at work. A reader of its own reads the standard input line by line into a
channel; the program takes a line from the channel and logs it, one call after the
other, until the channel is closed and empty, a line cannot be read, or it is
interrupted; in each case it stops the pipeline before it exits. Meanwhile the
consumer of the pipeline goes on, and the files and the clock change as they like.
-/

namespace LogPipeline.Intake

/-- Lines the channel holds before the reader waits. -/
def channelCapacity : Nat := 1024

/-- The point the program has come to. It goes on to the next when no call of it
is under way. -/
inductive Stage where
  /-- It gives the pipeline its settings. -/
  | configuring
  | starting
  /-- It waits for a line or an interrupt. -/
  | awaiting
  /-- It logs a line. -/
  | logging
  /-- It stops the pipeline. -/
  | stopping (ending : Ending)
  | exited (ending : Ending)
  deriving DecidableEq, Repr

/-- The program, its reader, and the pipeline. -/
structure Session where
  /-- The lines that the reader has yet to read. -/
  unread : List (Option String)
  /-- The input ends after them. -/
  ends : Bool
  /-- The lines read and not yet received, the first first. -/
  channel : List (Option String)
  /-- The reader has ended, and with it its end of the channel. -/
  readerGone : Bool
  /-- The interrupt has come. -/
  signalled : Bool
  stage : Stage
  /-- The lines logged so far, the first first. -/
  forwarded : List String
  /-- The number of lines that have been logged. -/
  count : Nat
  system : System

/-- Whose turn it is. -/
inductive Turn where
  | reader
  /-- The interrupt comes. -/
  | signal
  /-- The program goes on, by itself or with the next line. -/
  | program
  /-- The program finds that it has been interrupted. -/
  | interrupt
  /-- The pipeline goes on: the call under way, a consumer or the time of its wait. -/
  | actor (a : Actor)
  /-- The files, the clock or the outcomes to come change from outside. -/
  | outside (w : World)

namespace Session

/-- A program that begins to apply its configuration. -/
def new (c : Config) (w : World) (lines : List (Option String)) (ends : Bool) : Session :=
  { unread := lines
    ends
    channel := []
    readerGone := false
    signalled := false
    stage := .configuring
    forwarded := []
    count := 0
    system := (System.new w).begin 0 (.apply c) }

/-- Nobody receives lines any more. -/
def isClosed (s : Session) : Bool :=
  match s.stage with
  | .stopping _ | .exited _ => true
  | _ => false

/-- The reader reads a line and sends it. It waits while the channel is full, and
ends when nobody receives. -/
def read (s : Session) : Session :=
  if s.readerGone then s
  else
    match s.unread with
    | [] => if s.ends then { s with readerGone := true } else s
    | line :: rest =>
      if s.isClosed then { s with unread := rest, readerGone := true }
      else if s.channel.length < channelCapacity then
        { s with unread := rest, channel := s.channel ++ [line] }
      else s

/-- Forwarding ends; what is in the channel is given up. -/
def finish (s : Session) (ending : Ending) : Session × Option Call :=
  ({ s with channel := [], stage := .stopping ending }, some .stop)

/-- The program receives a line, or finds that none will come. -/
def receive (s : Session) : Session × Option Call :=
  match s.channel with
  | some line :: rest =>
    ({ s with channel := rest, stage := .logging, forwarded := s.forwarded ++ [line] },
      some (lineCall line))
  | none :: _ => s.finish .unreadable
  | [] => if s.readerGone then s.finish .inputEnd else (s, none)

/-- The program goes on, and perhaps begins a call. -/
def proceed (s : Session) : Session × Option Call :=
  match s.stage with
  | .configuring => ({ s with stage := .starting }, some .start)
  | .starting => ({ s with stage := .awaiting }, none)
  | .awaiting => s.receive
  | .logging => ({ s with stage := .awaiting, count := s.count + 1 }, none)
  | .stopping ending => ({ s with stage := .exited ending }, none)
  | .exited _ => (s, none)

/-- No call of the program is under way. -/
def isIdle (s : Session) : Bool := (s.system.caller 0).tasks.isEmpty

/-- What the program does of itself in a turn. The reader starts when the pipeline
has started. -/
def act (s : Session) : Turn → Session × Option Call
  | .reader =>
    match s.stage with
    | .configuring | .starting => (s, none)
    | _ => (s.read, none)
  | .signal => ({ s with signalled := true }, none)
  | .program => if s.isIdle then s.proceed else (s, none)
  | .interrupt =>
    if s.stage = .awaiting ∧ s.signalled then s.finish .interrupted else (s, none)
  | .actor _ | .outside _ => (s, none)

/-- What becomes of the pipeline in a turn in which the program may begin a call. -/
def drive (system : System) (call : Option Call) : Turn → System
  | .actor a => system.step a
  | .outside w => { system with pipeline := { system.pipeline with world := w } }
  | _ =>
    match call with
    | some call => system.begin 0 call
    | none => system

def next (s : Session) (t : Turn) : Session :=
  let (s', call) := s.act t
  { s' with system := drive s.system call t }

/-- A session after some turns. -/
def run (c : Config) (w : World) (lines : List (Option String)) (ends : Bool)
    (ts : List Turn) : Session :=
  ts.foldl next (new c w lines ends)

/-- What forwarding has given when the program has exited: the number of lines, or
that one could not be read. -/
def outcome? (s : Session) : Option (Except Failure Nat) :=
  match s.stage with
  | .exited .unreadable => some (.error .reading)
  | .exited _ => some (.ok s.count)
  | _ => none

end Session

end LogPipeline.Intake
