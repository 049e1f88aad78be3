import LogPipeline.Sync.SpinLock
/-!
# A value behind a spin lock

The value is reached only through a guard, which exists from a successful
acquisition until it is dropped; dropping it releases the lock. Any number of
parties contend for the guard, each at its own point of an acquisition. A party
is one who wants a guard and then has it: a thread that tries for a second guard
while it has one is another party.
-/

namespace LogPipeline.Sync

/-- A value and the lock that guards it. -/
structure SpinMutex (α : Type) where
  lock : SpinLock
  value : α
  deriving DecidableEq, Repr

namespace SpinMutex

variable {α : Type}

def new (value : α) : SpinMutex α := ⟨.free, value⟩

def isLocked (m : SpinMutex α) : Bool := m.lock.isLocked

/-- A mutex as it is shown to a programmer. -/
def describe (m : SpinMutex α) : String :=
  "SpinMutex \x7b locked: " ++ (if m.isLocked then "true" else "false") ++ ", .. \x7d"

/-- What one of the parties that share a mutex is about. -/
inductive Party (α : Type) where
  | outside
  | trying (a : Acquisition)
  /-- It goes on with acquisitions of one attempt until one succeeds. -/
  | locking
  /-- It holds the guard, and has last seen or written that value through it. -/
  | inside (seen : α)
  deriving DecidableEq, Repr

/-- A mutex and the parties that share it. -/
structure Contest (α : Type) where
  mutex : SpinMutex α
  party : Nat → Party α

/-- What a party may do next. -/
inductive Move (α : Type) where
  /-- It wants the guard, with a number of attempts. -/
  | want (budget : UInt32)
  /-- It wants the guard, however long it takes. -/
  | lock
  | attempt
  | read
  | write (value : α)
  | drop

/-- What a move gives the party. -/
inductive Reply (α : Type) where
  | silent
  | acquired
  | failed (e : SyncError)
  | value (v : α)
  | noGuard
  /-- The lock was not held when the guard was dropped. -/
  | notHeld
  deriving DecidableEq, Repr

namespace Contest

def new (value : α) : Contest α := ⟨.new value, fun _ => .outside⟩

/-- The contest after a party has come to another point. -/
def setParty (c : Contest α) (i : Nat) (p : Party α) : Contest α :=
  { c with party := fun j => if j = i then p else c.party j }

/-- One attempt of a party's acquisition; `refused` says what the party is told
and where it stands when that was the last one. -/
def attempt (c : Contest α) (i : Nat) (a : Acquisition) (refused : Reply α × Party α) :
    Reply α × Contest α :=
  match c.mutex.lock.attempt a with
  | (.acquired, lock) =>
    (.acquired, { c with mutex := { c.mutex with lock } }.setParty i (.inside c.mutex.value))
  | (.refused, lock) =>
    (refused.1, { c with mutex := { c.mutex with lock } }.setParty i refused.2)
  | (.again a, lock) => (.silent, { c with mutex := { c.mutex with lock } }.setParty i (.trying a))

def move (c : Contest α) (i : Nat) (m : Move α) : Reply α × Contest α :=
  match m, c.party i with
  | .want budget, .outside => (.silent, c.setParty i (.trying (.start budget)))
  | .want _, _ => (.silent, c)
  | .lock, .outside => (.silent, c.setParty i .locking)
  | .lock, _ => (.silent, c)
  | .attempt, .trying a => c.attempt i a (.failed .lockBusy, .outside)
  | .attempt, .locking => c.attempt i (.start 1) (.silent, .locking)
  | .attempt, _ => (.silent, c)
  | .read, .inside _ => (.value c.mutex.value, c.setParty i (.inside c.mutex.value))
  | .read, _ => (.noGuard, c)
  | .write v, .inside _ =>
    (.silent, { c with mutex := { c.mutex with value := v } }.setParty i (.inside v))
  | .write _, _ => (.noGuard, c)
  | .drop, .inside _ =>
    match c.mutex.lock.release? with
    | some lock => (.silent, { c with mutex := { c.mutex with lock } }.setParty i .outside)
    | none => (.notHeld, c.setParty i .outside)
  | .drop, _ => (.noGuard, c)

end Contest

end SpinMutex

end LogPipeline.Sync
