/-!
# The spin lock

A lock that is taken by comparing and swapping and never sleeps. A caller says
how many attempts it makes; with no attempts given it goes on until one
succeeds. The lock has no owner: whoever calls may release it.
-/

namespace LogPipeline.Sync

/-- Failures of the primitives that do not wait. -/
inductive SyncError where
  | lockBusy
  | waitTimeout
  deriving DecidableEq, Repr

def SyncError.message : SyncError → String
  | lockBusy => "lock busy"
  | waitTimeout => "event wait timed out"

inductive SpinLock where
  | free
  | held
  deriving DecidableEq, Repr

/-- An acquisition under way. -/
structure Acquisition where
  /-- The greatest number of attempts; none given means any number. -/
  budget : UInt32
  /-- Attempts that have failed, counted only against a budget. -/
  failed : UInt32
  deriving DecidableEq, Repr

def Acquisition.start (budget : UInt32) : Acquisition := ⟨budget, 0⟩

inductive Attempt where
  | acquired
  | refused
  | again (a : Acquisition)
  deriving DecidableEq, Repr

namespace SpinLock

def isLocked (l : SpinLock) : Bool := l == held

/-- One attempt of an acquisition. -/
def attempt (a : Acquisition) : SpinLock → Attempt × SpinLock
  | free => (.acquired, held)
  | held =>
    if a.budget = 0 then (.again a, held)
    else if a.budget ≤ a.failed + 1 then (.refused, held)
    else (.again { a with failed := a.failed + 1 }, held)

/-- A whole acquisition of a lock that nobody else touches meanwhile. It does
not end on a held lock if it may make any number of attempts. -/
def tryAcquire (budget : UInt32) : SpinLock → Option (Except SyncError SpinLock)
  | free => some (.ok held)
  | held => if budget = 0 then none else some (.error .lockBusy)

/-- Releases the lock; a lock that is not held cannot be released. -/
def release? : SpinLock → Option SpinLock
  | held => some free
  | free => none

/-- The message of a caller that releases a lock that is not held. -/
def notHeldMessage : String := "SpinLock::release called on a lock that is not held"

end SpinLock

end LogPipeline.Sync
