import LogPipeline.Sync.SpinLock
/-!
# The broadcast event

An event is a sequence of slots, one of them live while the event is open. A
broadcast retires the live slot, arms a new one and wakes everyone who waits on
the old slot; a waiter thus waits for the next broadcast and never sees an
earlier one. Closing retires the live slot without arming another.

A call on an event is a value that says how far the call has come. Parties
share an event by taking turns at `EventCall.step`; the slot's lock is taken
in one step, with the change of slots, and given back in the next.
-/

namespace LogPipeline.Sync

/-- How a wait ends. -/
inductive WaitStatus where
  | signaled
  /-- The event was closed, before the wait or during it. -/
  | closed
  deriving DecidableEq, Repr

/-- One generation of an event. -/
structure Slot where
  fired : Option WaitStatus
  /-- Parties registered on the slot. -/
  waiters : Nat
  deriving DecidableEq, Repr

def Slot.fresh : Slot := ⟨none, 0⟩

/-- The number of a slot, counted from the oldest. -/
abbrev SlotId := Nat

/-- An event with all its slots. -/
structure BroadcastEvent where
  lock : SpinLock
  slots : Array Slot
  live : Option SlotId
  deriving DecidableEq, Repr

inductive WaitMode where
  | untimed
  | timed
  /-- It only looks whether the slot has fired. -/
  | poll
  deriving DecidableEq, Repr

inductive EventOp where
  | broadcast
  | close
  | reopen
  | isClosed
  | waiters
  | wait (mode : WaitMode)
  deriving DecidableEq, Repr

inductive EventReply where
  | done
  | closed (b : Bool)
  | waiters (n : Nat)
  | woken (status : WaitStatus)
  | failed (e : SyncError)
  deriving DecidableEq, Repr

inductive EventCall where
  /-- It tries to take the lock. -/
  | enter (op : EventOp) (a : Acquisition)
  /-- It holds the lock and has the slot it retired, or the live slot. -/
  | leave (op : EventOp) (slot : Option SlotId)
  /-- It has retired a slot and is about to wake those who wait on it. -/
  | fire (slot : SlotId) (status : WaitStatus)
  /-- It is about to look at a slot. -/
  | poll (slot : SlotId)
  /-- It is about to be counted among the slot's waiters. -/
  | register (slot : SlotId) (mode : WaitMode)
  /-- It waits for the slot to fire. -/
  | waiting (slot : SlotId) (mode : WaitMode)
  /-- Its wait is over; it is still counted. -/
  | unregister (slot : SlotId) (status : Option WaitStatus)
  | finished (reply : EventReply)
  deriving DecidableEq, Repr

namespace BroadcastEvent

def new : BroadcastEvent := ⟨.free, #[.fresh], some 0⟩

/-- Attempts a broadcast makes at the lock before it gives up. -/
def broadcastAttempts : UInt32 := 64

/-- The event with a new live slot. -/
def arm (e : BroadcastEvent) : BroadcastEvent :=
  { e with slots := e.slots.push .fresh, live := some e.slots.size }

def modifySlot (e : BroadcastEvent) (i : SlotId) (f : Slot → Slot) : BroadcastEvent :=
  { e with slots := e.slots.modify i f }

/-- Whether and how a slot has fired. -/
def fired? (e : BroadcastEvent) (i : SlotId) : Option WaitStatus := (e.slots[i]?).bind (·.fired)

/-- The parties registered on the live slot. -/
def liveWaiters (e : BroadcastEvent) : Nat :=
  match e.live with
  | some i => (e.slots[i]?).elim 0 (·.waiters)
  | none => 0

/-- What an operation does to the slots while the lock is held, and the slot it
takes along: the one it retired, or the live one. -/
def exchange (e : BroadcastEvent) : EventOp → BroadcastEvent × Option SlotId
  | .broadcast => (e.arm, e.live)
  | .close => ({ e with live := none }, e.live)
  | .reopen => (if e.live.isNone then e.arm else e, none)
  | .isClosed | .waiters | .wait _ => (e, e.live)

/-- Wakes those who wait on a slot; a slot fires once. -/
def fire (e : BroadcastEvent) (i : SlotId) (status : WaitStatus) : BroadcastEvent :=
  e.modifySlot i fun s => { s with fired := s.fired <|> some status }

end BroadcastEvent

namespace EventCall

/-- A call that has not begun. Only a broadcast gives up on a busy lock. -/
def start (op : EventOp) : EventCall :=
  .enter op (.start (if op = .broadcast then BroadcastEvent.broadcastAttempts else 0))

/-- Where a call goes after it has given the lock back. -/
def afterLock (e : BroadcastEvent) : EventOp → Option SlotId → EventCall
  | .broadcast, some i => .fire i .signaled
  | .close, some i => .fire i .closed
  | .broadcast, none | .close, none | .reopen, _ => .finished .done
  | .isClosed, slot => .finished (.closed slot.isNone)
  | .waiters, _ => .finished (.waiters e.liveWaiters)
  | .wait _, none => .finished (.woken .closed)
  | .wait .poll, some i => .poll i
  | .wait mode, some i => .register i mode

/-- The reply of a wait that ended with or without the slot having fired. -/
def waitReply : Option WaitStatus → EventReply
  | some status => .woken status
  | none => .failed .waitTimeout

/-- One step of a call. A wait goes on only when its slot has fired. -/
def step (e : BroadcastEvent) : EventCall → BroadcastEvent × EventCall
  | .enter op a =>
    match e.lock.attempt a with
    | (.acquired, lock) =>
      let (e, slot) := { e with lock }.exchange op
      (e, .leave op slot)
    | (.refused, lock) => ({ e with lock }, .finished (.failed .lockBusy))
    | (.again a, lock) => ({ e with lock }, .enter op a)
  | .leave op slot => ({ e with lock := .free }, afterLock e op slot)
  | .fire i status => (e.fire i status, .finished .done)
  | .poll i => (e, .finished (waitReply (e.fired? i)))
  | .register i mode =>
    (e.modifySlot i fun s => { s with waiters := s.waiters + 1 }, .waiting i mode)
  | .waiting i mode =>
    match e.fired? i with
    | some status => (e, .unregister i (some status))
    | none => (e, .waiting i mode)
  | .unregister i status =>
    (e.modifySlot i fun s => { s with waiters := s.waiters - 1 }, .finished (waitReply status))
  | .finished reply => (e, .finished reply)

/-- The end of a timed wait's time. -/
def expire (e : BroadcastEvent) : EventCall → EventCall
  | .waiting i .timed => .unregister i (e.fired? i)
  | c => c

/-- Whether a call has ended, or waits on a slot that has not fired. -/
def isResting (e : BroadcastEvent) : EventCall → Bool
  | .finished _ => true
  | .waiting i _ => (e.fired? i).isNone
  | _ => false

def reply? : EventCall → Option EventReply
  | .finished reply => some reply
  | _ => none

/-- A call alone, for at most a number of steps. -/
def run (e : BroadcastEvent) (c : EventCall) : Nat → BroadcastEvent × EventCall
  | 0 => (e, c)
  | fuel + 1 =>
    if c.isResting e then (e, c)
    else
      let (e, c) := c.step e
      run e c fuel

/-- Steps in which any call alone ends or comes to rest. -/
def runLimit : Nat := 80

end EventCall

end LogPipeline.Sync
