import LogPipeline.Pipeline.Call
import LogPipeline.Pipeline.Consumer
/-!
# Systems and schedules

A system is a pipeline with its callers. Its steps are those of one caller, of
one consumer, or of the clock that ends a wait; any order of steps is a run.
One order is singled out: a call goes on until it ends or cannot, and then the
consumers go on until they wait. Under it a pipeline answers one call after
the other, and a wait of the consumer ends only when the clock is let run.
-/

namespace LogPipeline

/-- A pipeline and its callers. -/
structure System where
  pipeline : Pipeline
  caller : Nat → Caller

/-- Whose step it is. -/
inductive Actor where
  | caller (i : Nat)
  | consumer (i : Nat)
  /-- The time of a consumer's wait is over. -/
  | timer (i : Nat)
  deriving DecidableEq, Repr

namespace Pipeline

def stepConsumer (p : Pipeline) (i : Nat) : Pipeline :=
  match p.consumers[i]? with
  | some c =>
    let (p, c) := c.step p
    { p with consumers := p.consumers.set i c }
  | none => p

def expireConsumer (p : Pipeline) (i : Nat) : Pipeline :=
  match p.consumers[i]? with
  | some c => { p with consumers := p.consumers.set i (c.expire p) }
  | none => p

end Pipeline

namespace System

def new (world : World) : System := ⟨.new world, fun _ => .idle⟩

/-- The system after a caller has come to another point. -/
def setCaller (s : System) (i : Nat) (c : Caller) : System :=
  { s with caller := fun j => if j = i then c else s.caller j }

/-- A caller with nothing to do begins a call. -/
def begin (s : System) (i : Nat) (call : Call) : System :=
  if (s.caller i).tasks.isEmpty then s.setCaller i (.begin call) else s

def step (s : System) : Actor → System
  | .caller i =>
    let (pipeline, c) := (s.caller i).step i s.pipeline
    { s with pipeline }.setCaller i c
  | .consumer i => { s with pipeline := s.pipeline.stepConsumer i }
  | .timer i => { s with pipeline := s.pipeline.expireConsumer i }

end System

namespace Pipeline

def readyConsumer? (p : Pipeline) : Option Nat :=
  p.consumers.findIdx? fun c => !c.isResting p

/-- Lets the consumers go on until all of them wait or have ended. -/
def settleFor (p : Pipeline) : Nat → Pipeline
  | 0 => p
  | fuel + 1 =>
    match p.readyConsumer? with
    | some i => (p.stepConsumer i).settleFor fuel
    | none => p

/-- Steps in which consumers come to rest: each entry in hand takes one, and
each round some more. -/
def settleLimit (p : Pipeline) : Nat :=
  1000 + 4 * (p.buffer.incoming.length + (p.consumers.flatMap (·.draining)).length)

def settle (p : Pipeline) : Pipeline := p.settleFor p.settleLimit

/-- Ends the time of every wait, and lets the consumers go on. -/
def passTime (p : Pipeline) : Pipeline :=
  ((List.range p.consumers.length).foldl expireConsumer p).settle

/-- Lets a caller go on until it has ended its call; consumers go on when it
cannot. It stops at the condition, or when nobody can go on. -/
def runCaller (stop : Caller → Bool) (i : Nat) (p : Pipeline) (c : Caller) :
    Nat → Pipeline × Caller
  | 0 => (p, c)
  | fuel + 1 =>
    if stop c || c.tasks.isEmpty then (p, c)
    else if c.isResting p then
      let p := p.settle
      if c.isResting p then (p, c) else runCaller stop i p c fuel
    else
      let (p, c) := c.step i p
      runCaller stop i p c fuel

/-- Steps in which a call ends. -/
def callLimit : Nat := 1000

/-- Makes a call and lets the consumers settle. -/
def perform (p : Pipeline) (call : Call) : Option Reply × Pipeline :=
  let (p, c) := p.runCaller (fun _ => false) 0 (.begin call) callLimit
  (c.reply, p.settle)

def performAll (p : Pipeline) (calls : List Call) : Pipeline :=
  calls.foldl (fun p call => (p.perform call).2) p

/-- A stopped pipeline with the settings of a configuration. -/
def ofConfig (c : Config) (world : World) : Pipeline := ((new world).perform (.apply c)).2

end Pipeline

end LogPipeline
