import LogPipeline.Sync.BroadcastEvent
/-!
# A gathering at an event

An event with the parties that wait on it and a clock. One party leads: it
makes calls, sends others off to wait, and joins them. Time passes only while
the leader itself waits, so the clock stands still during any call that ends
by itself, and a wait runs out when the leader has waited past its deadline.

Between two calls of the leader every waiter has settled: it has ended, or it
waits on a slot that has not fired.
-/

namespace LogPipeline.Sync

/-- The way to wait with a timeout: without one for as long as it takes, and
with a timeout of nothing not at all. -/
def WaitMode.ofTimeout : Option Nat → WaitMode
  | none => .untimed
  | some 0 => .poll
  | some (_ + 1) => .timed

/-- A party sent off to wait. -/
structure Waiter where
  /-- The name it is joined by, unless a later waiter has taken it. -/
  name : Option String
  call : EventCall
  /-- When its wait runs out. -/
  deadline : Option Nat
  deriving DecidableEq, Repr

/-- An event, the parties at it, and the time. -/
structure Gathering where
  event : BroadcastEvent
  /-- Milliseconds since the event was made. -/
  clock : Nat
  waiters : List Waiter
  deriving DecidableEq, Repr

namespace Waiter

/-- A waiter goes on until it rests. -/
def settle (e : BroadcastEvent) (w : Waiter) : BroadcastEvent × Waiter :=
  let (e, call) := w.call.run e EventCall.runLimit
  (e, { w with call })

/-- Waiters go on until they rest, one after the other. -/
def settleAll (e : BroadcastEvent) : List Waiter → BroadcastEvent × List Waiter
  | [] => (e, [])
  | w :: ws =>
    let (e, w) := w.settle e
    let (e, ws) := settleAll e ws
    (e, w :: ws)

/-- Ends a wait that has run out by a time. -/
def expireBy (time : Nat) (e : BroadcastEvent) (w : Waiter) : Waiter :=
  if w.deadline.any (· ≤ time) then { w with call := w.call.expire e } else w

end Waiter

namespace Gathering

def new : Gathering := ⟨.new, 0, []⟩

/-- Lets every waiter go on until it rests. -/
def settle (g : Gathering) : Gathering :=
  let (event, waiters) := Waiter.settleAll g.event g.waiters
  { g with event, waiters }

/-- Lets time pass up to a point; the clock never goes back. -/
def advance (time : Nat) (g : Gathering) : Gathering :=
  let clock := max g.clock time
  settle { g with clock, waiters := g.waiters.map (·.expireBy clock g.event) }

/-- A call to its end. If it comes to rest first, time passes up to its
deadline and ends it; without a deadline it would never end. -/
def finish (g : Gathering) (c : EventCall) (deadline : Option Nat) :
    Option (EventReply × Gathering) :=
  let (event, c) := c.run g.event EventCall.runLimit
  let g := settle { g with event }
  match c.reply?, deadline with
  | some reply, _ => some (reply, g)
  | none, none => none
  | none, some time =>
    let g := g.advance time
    let (event, c) := (c.expire g.event).run g.event EventCall.runLimit
    c.reply?.map fun reply => (reply, settle { g with event })

/-- The leader makes a call that needs no time. -/
def perform (g : Gathering) (op : EventOp) : Option (EventReply × Gathering) :=
  g.finish (.start op) none

/-- When a wait that begins now runs out. -/
def deadlineAfter (g : Gathering) (timeout : Option Nat) : Option Nat :=
  timeout.map (g.clock + ·)

/-- The leader waits, with a timeout in milliseconds or without one. -/
def wait (g : Gathering) (timeout : Option Nat) : Option (EventReply × Gathering) :=
  g.finish (.start (.wait (.ofTimeout timeout))) (g.deadlineAfter timeout)

/-- Sends a party off to wait under a name. An earlier one of that name waits
on without it. -/
def send (g : Gathering) (name : String) (timeout : Option Nat) : Gathering :=
  let unnamed := g.waiters.map fun w =>
    if w.name = some name then { w with name := none } else w
  let w : Waiter :=
    ⟨some name, .start (.wait (.ofTimeout timeout)), g.deadlineAfter timeout⟩
  settle { g with waiters := unnamed ++ [w] }

/-- The waiter of a name, and the gathering without it. -/
def take? (g : Gathering) (name : String) : Option (Waiter × Gathering) :=
  (g.waiters.find? (·.name = some name)).map fun w =>
    (w, { g with waiters := g.waiters.filter (·.name ≠ some name) })

/-- Waits for the end of a waiter that was taken. -/
def join (g : Gathering) (w : Waiter) : Option (EventReply × Gathering) :=
  g.finish w.call w.deadline

/-- A broadcast, with another one that is tried while the first has the lock.
Gives the replies of both, the first one's first. -/
def contend (g : Gathering) : Option (EventReply × EventReply × Gathering) := do
  let (event, outer) := (EventCall.start .broadcast).step g.event
  let (event, inner) := (EventCall.start .broadcast).run event EventCall.runLimit
  let inner ← inner.reply?
  let (outer, g) ← { g with event }.finish outer none
  return (outer, inner, g)

end Gathering

end LogPipeline.Sync
