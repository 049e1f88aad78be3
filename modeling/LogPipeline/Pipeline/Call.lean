import LogPipeline.Pipeline.State
/-!
# Calls on a logger

Each call is a list of tasks. A task is what its caller does next, in one step
on the shared state; a step replaces the task by the tasks that follow from
what was seen. Between any two steps other callers and the consumer may take
theirs.
-/

namespace LogPipeline

open Sync

/-- What a caller wants to log. -/
structure Request where
  level : Level
  tag : String
  args : List Arg
  site : CallSite
  deriving Repr

/-- A cell of the shared state with its new value. -/
inductive Setting where
  | level (l : Level)
  | showCaller (b : Bool)
  | emitMode (m : EmitMode)
  | switchFile (p : Option Path)
  | switchOff
  | target (p : Path) (cap : UInt64)
  | threshold (n : UInt64)
  | interval (ms : UInt64)
  | dumping (b : Bool)
  | fallback (p : Path)
  | retention (days : Option UInt64)
  | sink (s : Sink)

/-- What a caller does next. -/
inductive Task where
  /-- It looks at the debug switch for a debug entry. -/
  | checkSwitch (r : Request)
  /-- It compares the entry's level with the least one that passes. -/
  | checkLevel (r : Request)
  /-- It compares the level of several verbatim entries. -/
  | checkBlocks (level : Level) (blocks : List (List Arg))
  | compose (r : Request)
  /-- It sees how hard to try to queue some entries. -/
  | chooseMode (batch : List Entry)
  /-- It is at work on the queue; so many entries are dropped if it is refused. -/
  | onBuffer (c : BufferCall) (stake : Nat)
  | countDropped (n : Nat)
  /-- It sees whether entries are dumped, after it has queued some. -/
  | checkDumping (queued : Nat)
  /-- It compares the length of the queue with the threshold. -/
  | checkThreshold (queued : Nat)
  | onEvent (name : EventName) (c : EventCall)
  | store (s : Setting)
  | lockLifecycle
  | unlockLifecycle
  /-- It sees whether a consumer runs, before it starts one. -/
  | checkStopped
  | spawn
  | takeWorker
  | join (consumer : Nat)

/-- What a call gives its caller. -/
inductive Reply where
  | started
  | alreadyRunning
  deriving DecidableEq, Repr

/-- A caller: what it still has to do, and the last reply it got. -/
structure Caller where
  tasks : List Task
  reply : Option Reply

def Caller.idle : Caller := ⟨[], none⟩

/-- A call on a logger. -/
inductive Call where
  /-- Logs at a level; a debug entry is let through by the debug switch. -/
  | log (r : Request)
  /-- Queues blocks of verbatim text together. -/
  | detail (level : Level) (blocks : List (List Arg))
  | emptyLine
  | setLevel (l : Level)
  | setShowCaller (b : Bool)
  | setEmitMode (m : EmitMode)
  | setSwitchFile (p : Option Path)
  | setFallback (p : Path)
  | setRetention (days : Option UInt64)
  | setSink (s : Sink)
  | startDump (path : Path) (cap threshold interval : UInt64)
  | stopDump
  | apply (c : Config)
  | start
  | stop

namespace Setting

/-- The pipeline with a cell set. -/
def apply (p : Pipeline) : Setting → Pipeline
  | .level l => { p with level := l }
  | .showCaller b => { p with showCaller := b }
  | .emitMode m => { p with emitMode := m }
  | .switchFile file => { p with switchFile := file }
  | .switchOff => { p with switchOn := false }
  | .target path cap => { p with writer := p.writer.setTarget path cap }
  | .threshold n => { p with threshold := n }
  | .interval ms => { p with interval := ms }
  | .dumping b => { p with dumping := b }
  | .fallback path => { p with writer := { p.writer with fallback := path } }
  | .retention days => { p with writer := { p.writer with retention := days } }
  | .sink s => { p with sink := s }

end Setting

namespace Call

/-- Names the debug switch file, and takes the switch back. -/
def switchFileTasks (p : Option Path) : List Task :=
  [.store (.switchFile p), .store .switchOff]

/-- Points the writer at a file, makes room in the queue, and only then turns
dumping on. -/
def startDumpTasks (path : Path) (cap threshold interval : UInt64) : List Task :=
  [.store (.target path cap), .store (.threshold threshold), .store (.interval interval),
    .onBuffer (.reserve Default.bufferCapacity) 0, .store (.dumping true)]

/-- Gives every setting of a configuration; dumping is turned on if it says so
and never off. -/
def applyTasks (c : Config) : List Task :=
  [.store (.level c.level), .store (.showCaller c.showCaller), .store (.emitMode c.emitMode)] ++
    switchFileTasks c.switchFile ++
    [.store (.fallback c.fallback), .store (.retention c.retention)] ++
    (if c.isDump then startDumpTasks c.dumpPath c.dumpSize c.dumpThreshold c.dumpInterval else [])

def tasks : Call → List Task
  | .log r => if r.level = .debug then [.checkSwitch r] else [.checkLevel r]
  | .detail level blocks => [.checkBlocks level blocks]
  | .emptyLine => [.chooseMode [Entry.preformatted (.utc 0) .info []]]
  | .setLevel l => [.store (.level l)]
  | .setShowCaller b => [.store (.showCaller b)]
  | .setEmitMode m => [.store (.emitMode m)]
  | .setSwitchFile p => switchFileTasks p
  | .setFallback p => [.store (.fallback p)]
  | .setRetention days => [.store (.retention days)]
  | .setSink s => [.store (.sink s)]
  | .startDump path cap threshold interval => startDumpTasks path cap threshold interval
  | .stopDump => [.store (.dumping false), .onEvent .dump (.start .broadcast)]
  | .apply c => applyTasks c
  | .start => [.lockLifecycle, .checkStopped, .unlockLifecycle]
  | .stop => [.lockLifecycle, .takeWorker, .unlockLifecycle]

end Call

/-- What a step of a task leads to. -/
structure TaskStep where
  pipeline : Pipeline
  /-- The tasks that take its place. -/
  next : List Task
  reply : Option Reply

namespace Task

/-- What follows a finished call on the queue. -/
def afterBuffer (stake : Nat) : BufferReply → List Task
  | .queued n => [.checkDumping n]
  | .refused => [.countDropped stake]
  | .drained _ _ | .reserved | .overflow => []

/-- The entry of a request, with the call site if it is to be shown. -/
def entryOf (p : Pipeline) (r : Request) : Entry :=
  let e := Entry.tagged p.world.localNow r.level r.tag r.args
  if p.showCaller then e.withCaller r.site else e

def startTasks : List Task :=
  [.onEvent .stop (.start .reopen), .onEvent .dump (.start .reopen),
    .onEvent .done (.start .reopen), .spawn]

def stopTasks (consumer : Nat) : List Task :=
  [.onEvent .stop (.start .close), .onEvent .dump (.start .close),
    .onEvent .done (.start (.wait .untimed)), .join consumer]

/-- One step of a task by a caller. A task that cannot go on stays. -/
def step (i : Nat) (p : Pipeline) : Task → TaskStep
  | .checkSwitch r => ⟨p, [if p.switchOn then .compose r else .checkLevel r], none⟩
  | .checkLevel r => ⟨p, if p.level ≤ r.level then [.compose r] else [], none⟩
  | .checkBlocks level blocks =>
    if p.level ≤ level ∧ blocks ≠ [] then
      ⟨p, [.chooseMode (blocks.map (Entry.preformatted p.world.localNow level))], none⟩
    else ⟨p, [], none⟩
  | .compose r => ⟨{ p with world := p.world.tick }, [.chooseMode [entryOf p r]], none⟩
  | .chooseMode batch =>
    ⟨p, [.onBuffer (.append batch p.emitMode.attempts) batch.length], none⟩
  | .onBuffer c stake =>
    let (buffer, c) := c.step p.buffer
    let p := { p with buffer }
    match c.reply? with
    | some reply => ⟨p, afterBuffer stake reply, none⟩
    | none => ⟨p, [.onBuffer c stake], none⟩
  | .countDropped n => ⟨p.addDropped n, [], none⟩
  | .checkDumping queued => ⟨p, if p.dumping then [.checkThreshold queued] else [], none⟩
  | .checkThreshold queued =>
    ⟨p, if p.threshold.toNat ≤ queued then [.onEvent .dump (.start .broadcast)] else [], none⟩
  | .onEvent name c =>
    let (e, c) := c.step (p.event name)
    let p := p.setEvent name e
    match c with
    | .finished _ => ⟨p, [], none⟩
    | c => ⟨p, [.onEvent name c], none⟩
  | .store s => ⟨s.apply p, [], none⟩
  | .lockLifecycle =>
    if p.lifecycle.isNone then ⟨{ p with lifecycle := some i }, [], none⟩
    else ⟨p, [.lockLifecycle], none⟩
  | .unlockLifecycle => ⟨{ p with lifecycle := none }, [], none⟩
  | .checkStopped =>
    if p.worker.isSome then ⟨p, [], some .alreadyRunning⟩ else ⟨p, startTasks, none⟩
  | .spawn =>
    ⟨{ p with consumers := p.consumers ++ [.new], worker := some p.consumers.length }, [],
      some .started⟩
  | .takeWorker =>
    match p.worker with
    | some h => ⟨{ p with worker := none }, stopTasks h, none⟩
    | none => ⟨p, [], none⟩
  | .join h =>
    match p.consumers[h]? with
    | some ⟨.ended, _, _, _, _, _, panicked⟩ =>
      ⟨if panicked then { p with notices := .consumerPanicked :: p.notices } else p, [], none⟩
    | _ => ⟨p, [.join h], none⟩

/-- Whether a task cannot go on before something else has happened. -/
def isBlocked (p : Pipeline) : Task → Bool
  | .lockLifecycle => p.lifecycle.isSome
  | .onEvent name c => c.isResting (p.event name)
  | .join h =>
    match p.consumers[h]? with
    | some ⟨.ended, _, _, _, _, _, _⟩ => false
    | _ => true
  | _ => false

end Task

namespace Caller

def step (i : Nat) (p : Pipeline) (c : Caller) : Pipeline × Caller :=
  match c.tasks with
  | [] => (p, c)
  | t :: rest =>
    let s := t.step i p
    (s.pipeline, ⟨s.next ++ rest, s.reply <|> c.reply⟩)

/-- Whether a caller has nothing to do, or cannot go on. -/
def isResting (p : Pipeline) (c : Caller) : Bool :=
  match c.tasks with
  | [] => true
  | t :: _ => t.isBlocked p

def begin (call : Call) : Caller := ⟨call.tasks, none⟩

end Caller

end LogPipeline
