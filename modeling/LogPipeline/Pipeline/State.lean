import LogPipeline.Config.Basic
import LogPipeline.Pipeline.Sink
import LogPipeline.RecordBuffer
import LogPipeline.Sync.BroadcastEvent
/-!
# The state of a pipeline

What the callers of a logger and its consumer share: settings, each in a cell
of its own; the queue; three events; the dump writer; the sink; and the world.
A consumer is a value that says how far its loop has come.
-/

namespace LogPipeline

open Sync

/-- The point a consumer has come to in its loop. -/
inductive ConsumerStage where
  /-- It is about to see whether entries are dumped. -/
  | top
  /-- It is about to look for the debug switch file. -/
  | seekSwitch
  /-- It has looked, and is about to set the debug switch. -/
  | noteSwitch (found : Bool)
  /-- It waits for the queue to fill up, or for the time to dump. -/
  | awaitDump (c : EventCall)
  /-- It sees whether the pipeline is being stopped. -/
  | checkStop (c : EventCall)
  | takeQueue (c : BufferCall)
  | choose
  | dump
  /-- It is about to take the sink that prints what it has drained. -/
  | pickSink
  | print (sink : Sink) (rest : List Entry)
  | flush (sink : Sink)
  /-- It is about to go on, to wait or to end. -/
  | decide
  /-- It waits because there was nothing to print. -/
  | idle (c : EventCall)
  /-- It tells whoever stops it that it has ended. -/
  | finish (c : EventCall)
  | ended

/-- The single reader of the queue. -/
structure Consumer where
  stage : ConsumerStage
  /-- What it has taken from the queue and not yet handed on as a whole. -/
  draining : List Entry
  /-- The number of entries that have room where it keeps what it takes. -/
  room : Nat
  /-- Entries were dumped when this round began. -/
  wasDumping : Bool
  /-- The pipeline was being stopped when this round took the queue. -/
  stopping : Bool
  /-- The number of entries this round has taken. -/
  drained : Nat
  panicked : Bool

def Consumer.new : Consumer := ⟨.top, [], 0, false, false, 0, false⟩

/-- The three events of a pipeline. -/
inductive EventName where
  /-- The queue has reached the threshold. -/
  | dump
  /-- The pipeline is to stop. -/
  | stop
  /-- The consumer has ended. -/
  | done
  deriving DecidableEq, Repr

/-- What callers and consumers share. -/
structure Pipeline where
  level : Level
  showCaller : Bool
  emitMode : EmitMode
  /-- Debug entries pass whatever the level. -/
  switchOn : Bool
  dumping : Bool
  threshold : UInt64
  interval : UInt64
  dropped : UInt64
  buffer : RecordBuffer
  dumpEvent : BroadcastEvent
  stopEvent : BroadcastEvent
  doneEvent : BroadcastEvent
  writer : DumpWriter
  switchFile : Option Path
  sink : Sink
  /-- The consumer that a stop will wait for. -/
  worker : Option Nat
  /-- The caller that starts or stops the pipeline. -/
  lifecycle : Option Nat
  /-- All consumers ever started, the oldest first. -/
  consumers : List Consumer
  world : World
  /-- What sinks have written, the latest first. -/
  printed : List Printed
  /-- What the pipeline has reported of its own work, the latest first. -/
  notices : List Notice

namespace Pipeline

/-- A pipeline that is not started and would print to the console. -/
def new (world : World) : Pipeline :=
  { level := .debug
    showCaller := false
    emitMode := .bestEffort
    switchOn := false
    dumping := false
    threshold := Default.dumpThreshold
    interval := Default.dumpInterval
    dropped := 0
    buffer := .empty
    dumpEvent := .new
    stopEvent := .new
    doneEvent := .new
    writer := .new ⟨""⟩ defaultDumpSize
    switchFile := some Default.switchFile
    sink := .console
    worker := none
    lifecycle := none
    consumers := []
    world
    printed := []
    notices := [] }

def event (p : Pipeline) : EventName → BroadcastEvent
  | .dump => p.dumpEvent
  | .stop => p.stopEvent
  | .done => p.doneEvent

def setEvent (p : Pipeline) (name : EventName) (e : BroadcastEvent) : Pipeline :=
  match name with
  | .dump => { p with dumpEvent := e }
  | .stop => { p with stopEvent := e }
  | .done => { p with doneEvent := e }

/-- Whether a consumer is to be waited for. -/
def isRunning (p : Pipeline) : Bool := p.worker.isSome

def pending (p : Pipeline) : Nat := p.buffer.pending

def records (p : Pipeline) (c : Channel) : List Printed :=
  p.printed.filter fun r => r.channel == c

def addDropped (p : Pipeline) (n : Nat) : Pipeline :=
  { p with dropped := p.dropped + UInt64.ofNat n }

/-- A pipeline as it is shown to a programmer. -/
def describe (p : Pipeline) : String :=
  let flag (b : Bool) : String := if b then "true" else "false"
  "Logger \x7b level: " ++ p.level.title ++ ", show_caller: " ++ flag p.showCaller ++
    ", emit_mode: " ++ p.emitMode.title ++ ", dumping: " ++ flag p.dumping ++
    ", running: " ++ flag p.isRunning ++ ", pending: " ++ Decimal.natText p.pending ++ " \x7d"

end Pipeline

end LogPipeline
