import LogPipeline.Proofs.Lifecycle
import Mathlib.Algebra.BigOperators.Group.Finset.Basic
import Mathlib.Algebra.GroupWithZero.Nat
import Mathlib.Data.List.Induction

/-!
# The ledger of a run

The ledger writes down what the moves of a run do to entries, without any say in
what they do: which entries were accepted into the queue, in the order of the
appends; which were handed on by a consumer, in that order, and what became of
each; how many passed the level filter; and how many the queue refused.

What is on its way is read off the state: entries in the hands of a consumer
(`Pipeline.inHand`), and entries that a caller is about to queue or to count
(`Task.inFlight`, `Task.uncounted`).
-/

namespace LogPipeline

open Sync

/-- What became of an entry that a consumer has handed on. -/
inductive Fate where
  /-- A sink has written it. -/
  | printed (line : Printed)
  /-- The dump file took it. -/
  | written
  /-- The fallback file took it. -/
  | spilled
  | lost
  deriving DecidableEq, Repr

/-- What a sink has written of an entry. -/
def Fate.line? : Fate → Option Printed
  | printed line => some line
  | _ => none

def Printed.isLine : Printed → Bool
  | line .. => true
  | flush _ => false

/-- What the moves of a run have done to entries. -/
structure Ledger where
  accepted : List Entry
  handed : List (Entry × Fate)
  /-- The number of entries that passed the level filter. -/
  passed : Nat
  /-- The number of entries the queue refused. -/
  refused : Nat

namespace Ledger

def empty : Ledger := ⟨[], [], 0, 0⟩

def append (l l' : Ledger) : Ledger :=
  ⟨l.accepted ++ l'.accepted, l.handed ++ l'.handed, l.passed + l'.passed,
    l.refused + l'.refused⟩

instance : Append Ledger := ⟨append⟩

@[simp] theorem accepted_append (l l' : Ledger) :
    (l ++ l').accepted = l.accepted ++ l'.accepted := rfl

@[simp] theorem handed_append (l l' : Ledger) : (l ++ l').handed = l.handed ++ l'.handed := rfl

@[simp] theorem passed_append (l l' : Ledger) : (l ++ l').passed = l.passed + l'.passed := rfl

@[simp] theorem refused_append (l l' : Ledger) : (l ++ l').refused = l.refused + l'.refused := rfl

theorem append_assoc (l l' l'' : Ledger) : l ++ l' ++ l'' = l ++ (l' ++ l'') := by
  show Ledger.append (.append l l') l'' = .append l (.append l' l'')
  simp [append, Nat.add_assoc]

theorem append_empty (l : Ledger) : l ++ empty = l := by
  show Ledger.append l empty = l
  simp [append, empty]

theorem empty_append (l : Ledger) : empty ++ l = l := by
  show Ledger.append empty l = l
  simp [append, empty]

/-- The number of entries handed on that neither file took. -/
def lost (l : Ledger) : Nat := l.handed.countP fun h => h.2 = .lost

/-- The lines that sinks have written, in order. -/
def lines (l : Ledger) : List Printed := l.handed.filterMap fun h => h.2.line?

theorem lines_append (l l' : Ledger) : (l ++ l').lines = l.lines ++ l'.lines :=
  List.filterMap_append

theorem lost_append (l l' : Ledger) : (l ++ l').lost = l.lost + l'.lost :=
  List.countP_append

end Ledger

/-! ## What one step does -/

/-- What a call on the queue does to the entries it was given. -/
def BufferCall.ledger (b : RecordBuffer) : BufferCall → Ledger
  | .enter (.append entries) a =>
    match (b.lock.attempt a).1 with
    | .acquired => { Ledger.empty with accepted := entries }
    | .refused => { Ledger.empty with refused := entries.length }
    | .again _ => .empty
  | _ => .empty

/-- What a step of a caller does: entries pass the filter, and are accepted by
the queue or refused. -/
def Task.ledger (p : Pipeline) : Task → Ledger
  | .checkSwitch _ => { Ledger.empty with passed := if p.switchOn then 1 else 0 }
  | .checkLevel r => { Ledger.empty with passed := if p.level ≤ r.level then 1 else 0 }
  | .checkBlocks level blocks =>
    { Ledger.empty with passed := if p.level ≤ level then blocks.length else 0 }
  | .onBuffer c _ => c.ledger p.buffer
  | _ => .empty

/-- What a dump that reports these numbers did with its entries, in order. -/
def DumpReport.fates (r : DumpReport) : List Fate :=
  List.replicate r.written .written ++ List.replicate r.spilled .spilled ++
    List.replicate r.lost .lost

/-- What a step of a consumer does: it prints an entry, or dumps all it has. -/
def Consumer.ledger (p : Pipeline) (c : Consumer) : Ledger :=
  match c.stage with
  | .dump =>
    { Ledger.empty with
      handed := c.draining.zip (p.writer.dump c.draining p.world).1.fates }
  | .print sink (e :: _) =>
    if sink.panics (p.records sink.channel).length then .empty
    else { Ledger.empty with
      handed := [(e, .printed (.line sink.channel e.level (sink.textOf e)))] }
  | _ => .empty

/-- What the beginning of a call does: an empty line needs to pass no filter. -/
def Call.ledger : Call → Ledger
  | .emptyLine => { Ledger.empty with passed := 1 }
  | _ => .empty

namespace System

/-- What a move does to entries. -/
def ledgerOf (s : System) : Move → Ledger
  | .begin i call => if (s.caller i).tasks = [] then call.ledger else .empty
  | .act (.caller i) =>
    match (s.caller i).tasks with
    | t :: _ => t.ledger s.pipeline
    | [] => .empty
  | .act (.consumer j) =>
    match s.pipeline.consumers[j]? with
    | some c => c.ledger s.pipeline
    | none => .empty
  | .act (.timer _) | .outside _ => .empty

def ledgerFrom (s : System) : List Move → Ledger
  | [] => .empty
  | m :: ms => s.ledgerOf m ++ (s.next m).ledgerFrom ms

def ledger (world : World) (ms : List Move) : Ledger := (new world).ledgerFrom ms

theorem ledgerFrom_append (s : System) (ms ms' : List Move) :
    s.ledgerFrom (ms ++ ms') = s.ledgerFrom ms ++ (s.runFrom ms).ledgerFrom ms' := by
  induction ms generalizing s with
  | nil => exact (Ledger.empty_append _).symm
  | cons m ms ih =>
    rw [List.cons_append, ledgerFrom, ih, ledgerFrom, Ledger.append_assoc]
    rfl

theorem ledger_append (world : World) (ms ms' : List Move) :
    ledger world (ms ++ ms') = ledger world ms ++ (run world ms).ledgerFrom ms' :=
  ledgerFrom_append (new world) ms ms'

theorem ledger_concat (world : World) (ms : List Move) (m : Move) :
    ledger world (ms ++ [m]) = ledger world ms ++ (run world ms).ledgerOf m := by
  rw [ledger_append, ledgerFrom, ledgerFrom, Ledger.append_empty]

/-- What has been accepted stays so. -/
theorem accepted_mono (world : World) (ms ms' : List Move) :
    (ledger world ms).accepted <+: (ledger world (ms ++ ms')).accepted := by
  rw [ledger_append, Ledger.accepted_append]
  exact List.prefix_append _ _

end System

/-! ## What is on its way -/

namespace Consumer

/-- The queue as it was taken, before the consumer calls it its own. -/
def taken (c : Consumer) : List Entry :=
  match c.stage with
  | .takeQueue (.publish (.drained entries _)) | .takeQueue (.leave (.drained entries _)) =>
    entries
  | _ => c.draining

/-- What a consumer has taken and neither printed nor dumped. -/
def unhandled (c : Consumer) : List Entry :=
  match c.stage with
  | .print _ rest => rest
  | .flush _ => []
  | _ => c.taken

end Consumer

/-- What all consumers have taken and neither printed nor dumped. -/
def Pipeline.inHand (p : Pipeline) : List Entry := p.consumers.flatMap Consumer.unhandled

namespace Task

/-- Entries that have passed the filter and are neither accepted nor refused. -/
def inFlight : Task → Nat
  | .compose _ => 1
  | .chooseMode batch => batch.length
  | .onBuffer (.enter (.append entries) _) _ => entries.length
  | _ => 0

/-- Entries that are refused and not yet counted as dropped. -/
def uncounted : Task → Nat
  | .countDropped n => n
  | _ => 0

end Task

/-- The callers that begin calls in a run. -/
def callersOf (ms : List Move) : Finset Nat :=
  (ms.filterMap fun
    | .begin i _ => some i
    | _ => none).toFinset

open scoped BigOperators in
/-- What the tasks of some callers add up to. -/
def System.total (s : System) (callers : Finset Nat) (f : Task → Nat) : Nat :=
  ∑ i ∈ callers, ((s.caller i).tasks.map f).sum

end LogPipeline
