import LogPipeline.Pipeline.State
/-!
# The consumer

The loop of the single reader of the queue. While entries are dumped it waits
for the queue to fill up or for its time, otherwise it takes what there is; it
sees whether it is to stop before it takes the queue, so that the last round
takes all that was queued before; and it chooses between dumping and printing
after it has taken the queue. However it ends, it says so.
-/

namespace LogPipeline

open Sync

namespace Consumer

def switchFound (p : Pipeline) : Bool :=
  match p.switchFile with
  | some path => p.world.disk.has path
  | none => false

/-- Writes what was drained to the dump file. -/
def dumpAll (p : Pipeline) (draining : List Entry) : Pipeline :=
  let (report, notices, writer, world) := p.writer.dump draining p.world
  { p.addDropped report.lost with
    writer, world, notices := notices.reverse ++ p.notices }

/-- The stage after the end of a round. -/
def nextRound (c : Consumer) : ConsumerStage :=
  if c.stopping then .finish (.start .close)
  else if !c.wasDumping && c.drained = 0 then .idle (.start (.wait .timed))
  else .top

def step (p : Pipeline) (c : Consumer) : Pipeline × Consumer :=
  match c.stage with
  | .top =>
    (p, { c with
      wasDumping := p.dumping
      stage := if p.dumping then .seekSwitch else .checkStop (.start .isClosed) })
  | .seekSwitch => (p, { c with stage := .noteSwitch (switchFound p) })
  | .noteSwitch found =>
    ({ p with switchOn := found }, { c with stage := .awaitDump (.start (.wait .timed)) })
  | .awaitDump call =>
    let (dumpEvent, call) := call.step p.dumpEvent
    ({ p with dumpEvent },
      { c with stage := match call with
          | .finished _ => .checkStop (.start .isClosed)
          | call => .awaitDump call })
  | .checkStop call =>
    let (stopEvent, call) := call.step p.stopEvent
    ({ p with stopEvent },
      match call with
      | .finished reply =>
        { c with
          stopping := reply == .closed true
          stage := .takeQueue (.exchange c.draining c.room) }
      | call => { c with stage := .checkStop call })
  | .takeQueue call =>
    let (buffer, call) := call.step p.buffer
    ({ p with buffer },
      match call with
      | .finished (.drained entries room) =>
        { c with draining := entries, room, drained := entries.length, stage := .choose }
      | call => { c with stage := .takeQueue call })
  | .choose =>
    (p, { c with stage := if c.draining = [] then .decide else if p.dumping then .dump else .pickSink })
  | .dump => (dumpAll p c.draining, { c with draining := [], stage := .decide })
  | .pickSink => (p, { c with stage := .print p.sink c.draining })
  | .print sink [] => (p, { c with stage := .flush sink })
  | .print sink (e :: rest) =>
    if sink.panics (p.records sink.channel).length then
      (p, { c with draining := [], panicked := true, stage := .finish (.start .close) })
    else
      ({ p with printed := .line sink.channel e.level (sink.textOf e) :: p.printed },
        { c with stage := .print sink rest })
  | .flush sink =>
    (if sink.keepsFlushes then { p with printed := .flush sink.channel :: p.printed } else p,
      { c with draining := [], stage := .decide })
  | .decide => (p, { c with stage := c.nextRound })
  | .idle call =>
    let (stopEvent, call) := call.step p.stopEvent
    ({ p with stopEvent },
      { c with stage := match call with
          | .finished _ => .top
          | call => .idle call })
  | .finish call =>
    let (doneEvent, call) := call.step p.doneEvent
    ({ p with doneEvent },
      { c with stage := match call with
          | .finished _ => .ended
          | call => .finish call })
  | .ended => (p, c)

/-- The end of the time of a wait. -/
def expire (p : Pipeline) (c : Consumer) : Consumer :=
  match c.stage with
  | .awaitDump call => { c with stage := .awaitDump (call.expire p.dumpEvent) }
  | .idle call => { c with stage := .idle (call.expire p.stopEvent) }
  | _ => c

/-- Whether a consumer has ended, or waits. -/
def isResting (p : Pipeline) (c : Consumer) : Bool :=
  match c.stage with
  | .awaitDump call => call.isResting p.dumpEvent
  | .idle call => call.isResting p.stopEvent
  | .ended => true
  | _ => false

end Consumer

end LogPipeline
