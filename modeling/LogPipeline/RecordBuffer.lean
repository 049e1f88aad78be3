import LogPipeline.Entry
import LogPipeline.Sync.SpinLock
/-!
# The record buffer

The queue between the callers that log and the consumer that writes. Callers
append under a spin lock; the consumer exchanges the whole queue for an empty
one. The length is published beside the queue, so that it is read without the
lock.

A queue has room for a number of entries and moves to a larger place when it
outgrows it. Room goes along in an exchange, so that two places are used in
turn.
-/

namespace LogPipeline

open Sync

/-- Entries queued and not yet drained. -/
structure RecordBuffer where
  lock : SpinLock
  incoming : List Entry
  /-- The number of entries the queue can hold where it is. -/
  room : Nat
  /-- The length of the queue as it was last published. -/
  pending : Nat
  deriving Repr

/-- What may be asked of the buffer. -/
inductive BufferOp where
  | append (entries : List Entry)
  /-- Exchanges the queue for the caller's drained one, which has room of its
  own. -/
  | exchange (draining : List Entry) (room : Nat)
  /-- Makes room for so many more entries, which changes nothing else. -/
  | reserve (more : Nat)
  deriving Repr

/-- What a call gives its caller. -/
inductive BufferReply where
  /-- The length of the queue just after the append. -/
  | queued (length : Nat)
  /-- The entries that were queued, and the room they are in. -/
  | drained (entries : List Entry) (room : Nat)
  | reserved
  /-- There can never be that much room. -/
  | overflow
  | refused
  deriving Repr

inductive BufferCall where
  /-- It tries to take the lock. -/
  | enter (op : BufferOp) (a : Acquisition)
  /-- It holds the lock and is about to move the queue to where so many entries
  have room. -/
  | grow (needed : Nat)
  /-- It holds the lock and has changed the queue; the length is yet to be
  published. -/
  | publish (reply : BufferReply)
  /-- It holds the lock and is about to give it back. -/
  | leave (reply : BufferReply)
  | finished (reply : BufferReply)
  deriving Repr

namespace RecordBuffer

def empty : RecordBuffer := ⟨.free, [], 0, 0⟩

/-- Bytes an entry takes in the queue, without its text. -/
def entrySize : Nat := 96

/-- The most entries a queue can have room for: one allocation is at most half
the address space, less what aligning it to eight bytes may take. -/
def capacityLimit : Nat := (Nat.pow 2 63 - 8) / entrySize

/-- What is said of a queue that would outgrow every allocation. -/
def overflowMessage : String := "capacity overflow"

/-- The room of a queue that has to hold so many entries. A queue that moves
gets at least twice its room, so that most appends need no move. -/
def roomFor (room needed : Nat) : Nat :=
  if needed ≤ room then room else max needed (max (2 * room) 4)

/-- What an operation does once it has the lock. -/
def perform (b : RecordBuffer) : BufferOp → RecordBuffer × BufferCall
  | .append entries =>
    let incoming := b.incoming ++ entries
    ({ b with incoming, room := roomFor b.room incoming.length },
      .publish (.queued incoming.length))
  | .exchange draining room =>
    ({ b with incoming := draining, room }, .publish (.drained b.incoming b.room))
  | .reserve more =>
    let needed := b.incoming.length + more
    (b, if needed ≤ b.room then .leave .reserved
        else if needed ≤ capacityLimit then .grow needed
        else .leave .overflow)

end RecordBuffer

namespace BufferCall

def append (entries : List Entry) (attempts : UInt32) : BufferCall :=
  .enter (.append entries) (.start attempts)

/-- A call that exchanges the queue; it goes on until it has the lock. -/
def exchange (draining : List Entry) (room : Nat) : BufferCall :=
  .enter (.exchange draining room) (.start 0)

/-- A call that makes room; it goes on until it has the lock. -/
def reserve (more : Nat) : BufferCall := .enter (.reserve more) (.start 0)

def step (b : RecordBuffer) : BufferCall → RecordBuffer × BufferCall
  | .enter op a =>
    match b.lock.attempt a with
    | (.acquired, lock) => { b with lock }.perform op
    | (.refused, lock) => ({ b with lock }, .finished .refused)
    | (.again a, lock) => ({ b with lock }, .enter op a)
  | .grow needed => ({ b with room := RecordBuffer.roomFor b.room needed }, .leave .reserved)
  | .publish reply => ({ b with pending := b.incoming.length }, .leave reply)
  | .leave reply => ({ b with lock := .free }, .finished reply)
  | .finished reply => (b, .finished reply)

def reply? : BufferCall → Option BufferReply
  | .finished reply => some reply
  | _ => none

/-- A call alone, for at most a number of steps. -/
def run (b : RecordBuffer) (c : BufferCall) : Nat → RecordBuffer × BufferCall
  | 0 => (b, c)
  | fuel + 1 =>
    match c.reply? with
    | some _ => (b, c)
    | none =>
      let (b, c) := c.step b
      run b c fuel

/-- Steps in which a call alone ends on a free lock, or gives up on a held one. -/
def runLimit (attempts : UInt32) : Nat := attempts.toNat + 4

end BufferCall

end LogPipeline
