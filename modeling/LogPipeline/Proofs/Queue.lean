import LogPipeline.RecordBuffer
import LogPipeline.Proofs.Exclusion

/-!
# A queue and its length

Any number of parties share a buffer, each at its own point of a call, and a history is kept
of what they have asked for and got. The history says what is in the queue: the batches
appended since it was last exchanged (`Queueing.Filed`). The length that is read without the
lock is that of the queue, or that of the queue before the last change, if whoever made the
change has not published it yet (`Queueing.Published`). Both hold along every run
(`Queueing.every_run_keeps_queue`).
-/

namespace LogPipeline

open Sync

/-! ## Parties that share a buffer -/

/-- What a party may ask of the buffer. -/
inductive QueueRequest where
  /-- To append entries, with a number of attempts; one entry is a batch of one. -/
  | push (entries : List Entry) (attempts : UInt32)
  /-- To exchange the queue for an empty one that has room. -/
  | swap (room : Nat)
  | reserve (more : Nat)

namespace QueueRequest

def op : QueueRequest → BufferOp
  | push entries _ => .append entries
  | swap room => .exchange [] room
  | reserve more => .reserve more

/-- The attempts that a request makes, or any number if there are none. -/
def attempts : QueueRequest → UInt32
  | push _ attempts => attempts
  | _ => 0

def call : QueueRequest → BufferCall
  | push entries attempts => .append entries attempts
  | swap room => .exchange [] room
  | reserve more => .reserve more

theorem call_eq (r : QueueRequest) : r.call = .enter r.op (.start r.attempts) := by
  cases r <;> rfl

end QueueRequest

/-- A request and where it stands. -/
structure QueueCall where
  request : QueueRequest
  stage : BufferCall

/-- What has happened to a queue, and which party has done it. -/
inductive QueueEvent where
  | asked (i : Nat) (request : QueueRequest)
  /-- Entries are queued; the queue has so many then. -/
  | appended (i : Nat) (entries : List Entry) (length : Nat)
  | drained (i : Nat) (entries : List Entry)
  | refused (i : Nat)

/-- A buffer, the parties that share it and the history, which nobody reads. -/
structure Queueing where
  buffer : RecordBuffer
  party : Nat → Option QueueCall
  history : List QueueEvent

/-- What a party does next: it asks for something, unless a call of its own is under way, or
goes on with its call. -/
inductive QueueMove where
  | ask (request : QueueRequest)
  | step

/-- What an operation does to the queue. -/
def BufferOp.event? (i : Nat) (b : RecordBuffer) : BufferOp → Option QueueEvent
  | .append entries => some (.appended i entries (b.incoming ++ entries).length)
  | .exchange .. => some (.drained i b.incoming)
  | .reserve _ => none

/-- What a step of a call does to the queue. -/
def BufferCall.event? (i : Nat) (b : RecordBuffer) : BufferCall → Option QueueEvent
  | .enter op a =>
    match (b.lock.attempt a).1 with
    | .acquired => op.event? i b
    | .refused => some (.refused i)
    | .again _ => none
  | _ => none

namespace Queueing

def new : Queueing := ⟨.empty, fun _ => none, []⟩

def setParty (q : Queueing) (i : Nat) (c : QueueCall) : Queueing :=
  { q with party := fun j => if j = i then some c else q.party j }

/-- Whether a party has no call under way. -/
def isIdle (q : Queueing) (i : Nat) : Bool :=
  match q.party i with
  | some c => c.stage.reply?.isSome
  | none => true

/-- A party has asked for something. -/
def ask (q : Queueing) (i : Nat) (r : QueueRequest) : Queueing :=
  { q.setParty i ⟨r, r.call⟩ with history := q.history ++ [.asked i r] }

/-- A party has gone on with its call. -/
def advance (q : Queueing) (i : Nat) (c : QueueCall) : Queueing :=
  let (buffer, stage) := c.stage.step q.buffer
  { q.setParty i ⟨c.request, stage⟩ with
    buffer, history := q.history ++ (c.stage.event? i q.buffer).toList }

def next (q : Queueing) (i : Nat) : QueueMove → Queueing
  | .ask r => if q.isIdle i then q.ask i r else q
  | .step =>
    match q.party i with
    | some c => q.advance i c
    | none => q

def run (q : Queueing) (moves : List (Nat × QueueMove)) : Queueing :=
  moves.foldl (fun q m => q.next m.1 m.2) q

end Queueing

/-! ## Histories -/

namespace QueueEvent

def party : QueueEvent → Nat
  | asked i _ | appended i _ _ | drained i _ | refused i => i

/-- Whether an event changes the queue. -/
def changes : QueueEvent → Bool
  | appended .. | drained .. => true
  | _ => false

/-- The batches that are queued after an event. -/
def queue (batches : List (List Entry)) : QueueEvent → List (List Entry)
  | appended _ entries _ => batches ++ [entries]
  | drained .. => []
  | _ => batches

/-- The batches appended since the queue was last exchanged. -/
def waiting (history : List QueueEvent) : List (List Entry) := history.foldl queue []

theorem waiting_concat (history : List QueueEvent) (e : QueueEvent) :
    waiting (history ++ [e]) = e.queue (waiting history) := by
  simp [waiting, List.foldl_append]

/-- The events of the last call of a party, after an event. -/
def follow (i : Nat) (events : List QueueEvent) (e : QueueEvent) : List QueueEvent :=
  if e.party ≠ i then events
  else match e with
    | asked .. => []
    | _ => events ++ [e]

/-- What the last call of a party has done. -/
def ofCall (i : Nat) (history : List QueueEvent) : List QueueEvent :=
  history.foldl (follow i) []

theorem ofCall_concat (i : Nat) (history : List QueueEvent) (e : QueueEvent) :
    ofCall i (history ++ [e]) = follow i (ofCall i history) e := by
  simp [ofCall, List.foldl_append]

/-- The calls of other parties do not count. -/
theorem ofCall_concat_of_ne {i : Nat} {e : QueueEvent} (h : e.party ≠ i)
    (history : List QueueEvent) : ofCall i (history ++ [e]) = ofCall i history := by
  rw [ofCall_concat]
  exact if_pos h

/-- What an event tells of the queue is true after a history: how long it is, or what is in
it. -/
def Fits (history : List QueueEvent) : QueueEvent → Prop
  | appended _ entries length => length = (waiting history).flatten.length + entries.length
  | drained _ entries => entries = (waiting history).flatten
  | _ => True

/-- Every event is true after those before it. -/
def AllFit (history : List QueueEvent) : Prop :=
  ∀ before e after, history = before ++ e :: after → e.Fits before

theorem AllFit.concat {history : List QueueEvent} {e : QueueEvent} (h : AllFit history)
    (he : e.Fits history) : AllFit (history ++ [e]) := by
  intro before x after heq
  rcases List.eq_nil_or_concat after with rfl | ⟨after, y, rfl⟩
  · obtain ⟨rfl, hx⟩ := List.append_inj' heq rfl
    exact (List.cons.inj hx).1 ▸ he
  · rw [List.concat_eq_append, ← List.cons_append, ← List.append_assoc] at heq
    exact h before x after (List.append_inj' heq rfl).1

/-- The last change of a queue is by a party, and there were so many entries before it. -/
def LastChange (i length : Nat) (history : List QueueEvent) : Prop :=
  ∃ before e after, history = before ++ e :: after ∧ e.changes ∧ e.party = i ∧
    (∀ x ∈ after, x.changes = false) ∧ length = (waiting before).flatten.length

theorem LastChange.concat {i length : Nat} {history : List QueueEvent} {e : QueueEvent}
    (h : LastChange i length history) (he : e.changes = false) :
    LastChange i length (history ++ [e]) := by
  obtain ⟨before, x, after, rfl, hx, hi, hafter, hlength⟩ := h
  exact ⟨before, x, after ++ [e], by simp, hx, hi,
    List.forall_mem_append.2 ⟨hafter, List.forall_mem_singleton.2 he⟩, hlength⟩

/-- The batches that were appended, in order. -/
def batches (history : List QueueEvent) : List (List Entry) :=
  history.filterMap fun
    | appended _ entries _ => some entries
    | _ => none

/-- What each exchange gave, in order. -/
def exchanged (history : List QueueEvent) : List (List Entry) :=
  history.filterMap fun
    | drained _ entries => some entries
    | _ => none

/-- Batches go with one exchange each, all that were queued at a time and in order, or are
still queued. -/
theorem AllFit.groups {history : List QueueEvent} (h : AllFit history) :
    ∃ groups : List (List (List Entry)), batches history = groups.flatten ++ waiting history ∧
      exchanged history = groups.map List.flatten := by
  induction history using List.reverseRecOn with
  | nil => exact ⟨[], rfl, rfl⟩
  | append_singleton history e ih =>
    have hbefore : AllFit history := fun before x after heq =>
      h before x (after ++ [e]) (by rw [heq]; simp)
    obtain ⟨groups, hbatches, hexchanged⟩ := ih hbefore
    have he : e.Fits history := h history e [] rfl
    cases e with
    | appended i entries length =>
      exact ⟨groups, by simp [batches, waiting_concat, queue] at hbatches ⊢; simp [hbatches],
        by simpa [exchanged] using hexchanged⟩
    | drained i entries =>
      refine ⟨groups ++ [waiting history], ?_, ?_⟩
      · simpa [batches, waiting_concat, queue] using hbatches
      · obtain rfl : entries = _ := he
        simpa [exchanged] using hexchanged
    | asked i request =>
      exact ⟨groups, by simpa [batches, waiting_concat, queue] using hbatches,
        by simpa [exchanged] using hexchanged⟩
    | refused i =>
      exact ⟨groups, by simpa [batches, waiting_concat, queue] using hbatches,
        by simpa [exchanged] using hexchanged⟩

end QueueEvent

/-! ## What a step of a call does -/

/-- Whether a call has the lock. -/
def BufferCall.Holds : BufferCall → Prop
  | .grow _ | .publish _ | .leave _ => True
  | .enter .. | .finished _ => False

/-- Whether a call has changed the queue and not yet published its length. -/
def BufferCall.Publishes : BufferCall → Prop
  | .publish _ => True
  | _ => False

namespace RecordBuffer

/-- An operation that has the lock keeps it, and leaves the published length alone. -/
theorem perform_spec (b : RecordBuffer) (op : BufferOp) :
    (b.perform op).2.Holds ∧ (b.perform op).1.lock = b.lock ∧
      (b.perform op).1.pending = b.pending := by
  cases op with
  | append | exchange => exact ⟨trivial, rfl, rfl⟩
  | reserve more =>
    refine ⟨?_, rfl, rfl⟩
    simp only [perform]
    split
    · exact trivial
    · split <;> exact trivial

end RecordBuffer

namespace BufferCall

variable {b : RecordBuffer}

/-- A call that finds the lock free takes it and does what it has come for. -/
theorem step_enter_free (op : BufferOp) (a : Acquisition) (hfree : b.lock = .free) (i : Nat) :
    (enter op a).step b = ({ b with lock := .held }.perform op) ∧
      (enter op a).event? i b = op.event? i b := by
  simp only [step, event?, hfree, SpinLock.attempt]
  exact ⟨trivial, trivial⟩

/-- A call that finds the lock held leaves the buffer as it is; it gives up if its attempts
are used up, or goes on. -/
theorem step_enter_held (op : BufferOp) (a : Acquisition) (hheld : b.lock = .held) (i : Nat) :
    ((enter op a).step b).1 = b ∧
      (((enter op a).step b).2 = .finished .refused ∧ a.budget ≠ 0 ∧
          (enter op a).event? i b = some (.refused i) ∨
        ∃ a', ((enter op a).step b).2 = .enter op a' ∧ a'.budget = a.budget ∧
          (enter op a).event? i b = none) := by
  obtain ⟨lock, incoming, room, pending⟩ := b
  obtain rfl : lock = .held := hheld
  rcases SpinLock.attempt_held a with ⟨hbudget, h⟩ | ⟨a', hbudget, h⟩
  · simp only [step, event?, h]
    exact ⟨trivial, .inl ⟨trivial, hbudget, trivial⟩⟩
  · simp only [step, event?, h]
    exact ⟨trivial, .inr ⟨a', rfl, hbudget, trivial⟩⟩

/-- A call gets the lock when it is free, and whoever has it keeps it or gives it back. -/
theorem lock_step (c : BufferCall) (b : RecordBuffer) (hheld : c.Holds → b.lock = .held) :
    ((c.step b).2.Holds ∧ (c.step b).1.lock = .held ∧ (c.Holds ∨ b.lock = .free)) ∨
      (¬(c.step b).2.Holds ∧
        (c.Holds ∧ (c.step b).1.lock = .free ∨ ¬c.Holds ∧ (c.step b).1.lock = b.lock)) := by
  cases c with
  | enter op a =>
    cases hlock : b.lock with
    | free =>
      rw [(step_enter_free op a hlock 0).1]
      obtain ⟨hholds, hlock', -⟩ := RecordBuffer.perform_spec { b with lock := .held } op
      exact .inl ⟨hholds, hlock', .inr rfl⟩
    | held =>
      obtain ⟨hbuffer, hstage⟩ := step_enter_held op a hlock 0
      refine .inr ⟨?_, .inr ⟨id, by rw [hbuffer, hlock]⟩⟩
      rcases hstage with ⟨hstage, -⟩ | ⟨a', hstage, -⟩ <;> rw [hstage] <;> exact id
  | grow needed => exact .inl ⟨trivial, hheld trivial, .inl trivial⟩
  | publish reply => exact .inl ⟨trivial, hheld trivial, .inl trivial⟩
  | leave reply => exact .inr ⟨id, .inl ⟨trivial, rfl⟩⟩
  | finished reply => exact .inr ⟨id, .inr ⟨id, rfl⟩⟩

end BufferCall

namespace Queueing

variable {q : Queueing} {i j : Nat}

/-! ## One party at a time -/

/-- Whether a party has the lock. -/
def Holds (q : Queueing) (i : Nat) : Prop := ∃ c, q.party i = some c ∧ c.stage.Holds

/-- Whether a party has changed the queue and not yet published its length. -/
def Publishes (q : Queueing) (i : Nat) : Prop := ∃ c, q.party i = some c ∧ c.stage.Publishes

theorem Publishes.holds (h : q.Publishes i) : q.Holds i := by
  obtain ⟨c, hc, hstage⟩ := h
  refine ⟨c, hc, ?_⟩
  cases hs : c.stage with
  | publish reply => exact trivial
  | enter | grow | leave | finished => rw [hs] at hstage; exact hstage.elim

theorem party_setParty_self (q : Queueing) (i : Nat) (c : QueueCall) :
    (q.setParty i c).party i = some c := if_pos rfl

theorem party_setParty_of_ne (q : Queueing) (c : QueueCall) (h : j ≠ i) :
    (q.setParty i c).party j = q.party j := if_neg h

/-- The lock is held exactly while one party has it. -/
structure Locked (q : Queueing) : Prop where
  held : ∀ i, q.Holds i → q.buffer.lock = .held
  holder : q.buffer.lock = .held → ∃ i, q.Holds i
  unique : ∀ i j, q.Holds i → q.Holds j → i = j

namespace Locked

theorem new : Locked new := ⟨nofun, nofun, nofun⟩

/-- A party that has the lock is the only one. -/
theorem not_holds_of_ne (h : Locked q) (hi : q.Holds i) (hne : j ≠ i) : ¬q.Holds j :=
  fun hj => hne (h.unique j i hj hi)

/-- While the lock is free nobody has it. -/
theorem not_holds_of_free (h : Locked q) (hfree : q.buffer.lock = .free) (j : Nat) :
    ¬q.Holds j := fun hj => by
  have hheld := h.held j hj
  rw [hfree] at hheld
  cases hheld

/-- Whoever has the lock may have changed, if the lock has been given back and taken anew. -/
theorem of_lock {q' : Queueing} (hi : q'.Holds i) (hheld : q'.buffer.lock = .held)
    (hothers : ∀ j, j ≠ i → ¬q'.Holds j) : Locked q' where
  held _ _ := hheld
  holder _ := ⟨i, hi⟩
  unique j k hj hk :=
    (Decidable.not_not.1 fun hne => hothers j hne hj).trans
      (Decidable.not_not.1 fun hne => hothers k hne hk).symm

theorem of_same {q' : Queueing} (h : Locked q) (hlock : q'.buffer.lock = q.buffer.lock)
    (hholds : ∀ j, q'.Holds j ↔ q.Holds j) : Locked q' where
  held j hj := hlock.trans (h.held j ((hholds j).1 hj))
  holder hheld := by
    obtain ⟨j, hj⟩ := h.holder (hlock.symm.trans hheld)
    exact ⟨j, (hholds j).2 hj⟩
  unique j k hj hk := h.unique j k ((hholds j).1 hj) ((hholds k).1 hk)

end Locked

theorem buffer_advance (q : Queueing) (i : Nat) (c : QueueCall) :
    (q.advance i c).buffer = (c.stage.step q.buffer).1 := rfl

theorem history_advance (q : Queueing) (i : Nat) (c : QueueCall) :
    (q.advance i c).history = q.history ++ (c.stage.event? i q.buffer).toList := rfl

theorem holds_setParty {c : QueueCall} :
    (q.setParty i c).Holds j ↔ if j = i then c.stage.Holds else q.Holds j := by
  unfold Holds
  by_cases hj : j = i
  · subst hj
    simp [party_setParty_self]
  · simp [party_setParty_of_ne q c hj, hj]

theorem publishes_setParty {c : QueueCall} :
    (q.setParty i c).Publishes j ↔ if j = i then c.stage.Publishes else q.Publishes j := by
  unfold Publishes
  by_cases hj : j = i
  · subst hj
    simp [party_setParty_self]
  · simp [party_setParty_of_ne q c hj, hj]

theorem holds_ask {r : QueueRequest} : (q.ask i r).Holds j ↔ j ≠ i ∧ q.Holds j := by
  refine holds_setParty.trans ?_
  rw [r.call_eq]
  by_cases hj : j = i <;> simp [hj, BufferCall.Holds]

theorem holds_advance {c : QueueCall} : (q.advance i c).Holds j ↔
    if j = i then (c.stage.step q.buffer).2.Holds else q.Holds j := holds_setParty

theorem publishes_ask {r : QueueRequest} : (q.ask i r).Publishes j ↔ j ≠ i ∧ q.Publishes j := by
  refine publishes_setParty.trans ?_
  rw [r.call_eq]
  by_cases hj : j = i <;> simp [hj, BufferCall.Publishes]

theorem publishes_advance {c : QueueCall} : (q.advance i c).Publishes j ↔
    if j = i then (c.stage.step q.buffer).2.Publishes else q.Publishes j := publishes_setParty

/-- A party without a call under way has no lock. -/
theorem not_holds_of_idle (h : q.isIdle i = true) : ¬q.Holds i := by
  rintro ⟨c, hc, hstage⟩
  rw [isIdle, hc] at h
  cases hs : c.stage with
  | finished reply => rw [hs] at hstage; exact hstage
  | enter | grow | publish | leave => simp [hs, BufferCall.reply?] at h

/-- What a move may do. -/
inductive Moves (q : Queueing) (i : Nat) : Queueing → Prop
  /-- The party has asked for nothing yet, or asks for more with a call under way. -/
  | stay : Moves q i q
  | ask (idle : q.isIdle i = true) (r : QueueRequest) : Moves q i (q.ask i r)
  | advance {c : QueueCall} (under : q.party i = some c) : Moves q i (q.advance i c)

theorem moves_next (q : Queueing) (i : Nat) (m : QueueMove) : q.Moves i (q.next i m) := by
  cases m with
  | ask r =>
    unfold next
    simp only
    split
    · next hidle => exact .ask hidle r
    · exact .stay
  | step =>
    unfold next
    simp only
    split
    · next c hc => exact .advance hc
    · exact .stay

theorem holds_of_party {c : QueueCall} (hc : q.party i = some c) : q.Holds i ↔ c.stage.Holds := by
  refine ⟨fun ⟨c', hc', hholds⟩ => ?_, fun hholds => ⟨c, hc, hholds⟩⟩
  cases hc.symm.trans hc'
  exact hholds

theorem Locked.advance (h : Locked q) {c : QueueCall} (hc : q.party i = some c) :
    Locked (q.advance i c) := by
  have hi := holds_of_party hc
  rcases c.stage.lock_step q.buffer fun hholds => h.held i (hi.2 hholds) with
    ⟨hholds, hheld, hbefore⟩ | ⟨hnot, ⟨hholds, hfree⟩ | ⟨hnone, hsame⟩⟩
  · refine .of_lock (holds_advance.2 (by rwa [if_pos rfl])) hheld fun j hj => ?_
    rw [holds_advance, if_neg hj]
    rcases hbefore with hheld' | hfree
    · exact h.not_holds_of_ne (hi.2 hheld') hj
    · exact h.not_holds_of_free hfree j
  · have hnobody : ∀ j, ¬(q.advance i c).Holds j := fun j => by
      rw [holds_advance]
      split
      · exact hnot
      · next hj => exact h.not_holds_of_ne (hi.2 hholds) hj
    refine ⟨fun j hj => (hnobody j hj).elim, fun hheld => ?_, fun j _ hj => (hnobody j hj).elim⟩
    cases hfree.symm.trans hheld
  · refine h.of_same hsame fun j => holds_advance.trans ?_
    split
    · next hj => exact hj ▸ iff_of_false hnot fun hholds => hnone (hi.1 hholds)
    · rfl

theorem Locked.next (h : Locked q) (i : Nat) (m : QueueMove) : Locked (q.next i m) := by
  have hmoves := q.moves_next i m
  generalize q.next i m = q' at hmoves
  cases hmoves with
  | stay => exact h
  | ask idle r =>
    refine h.of_same rfl fun j => holds_ask.trans ⟨And.right, fun hj => ⟨?_, hj⟩⟩
    rintro rfl
    exact not_holds_of_idle idle hj
  | advance hc => exact h.advance hc

/-! ## What the history says of the queue -/

/-- Whether a reply tells what the call of a party has done. -/
def Tells (i : Nat) (r : QueueRequest) (events : List QueueEvent) : BufferReply → Prop
  | .queued length => ∃ entries attempts, r = .push entries attempts ∧
    events = [.appended i entries length]
  | .drained entries _ => (∃ room, r = .swap room) ∧ events = [.drained i entries]
  | .refused => (∃ entries attempts, r = .push entries attempts ∧ attempts ≠ 0) ∧
    events = [.refused i]
  | .reserved | .overflow => (∃ more, r = .reserve more) ∧ events = []

/-- Whether a call of a party is where it comes to with what it has done. -/
def Stands (i : Nat) (r : QueueRequest) (events : List QueueEvent) : BufferCall → Prop
  | .enter op a => op = r.op ∧ a.budget = r.attempts ∧ events = []
  | .grow _ => Tells i r events .reserved
  | .publish reply | .leave reply | .finished reply => Tells i r events reply

/-- The queue holds what the history says, and calls stand where it says. -/
structure Filed (q : Queueing) : Prop where
  queue : q.buffer.incoming = (QueueEvent.waiting q.history).flatten
  fit : QueueEvent.AllFit q.history
  calls : ∀ i c, q.party i = some c → Stands i c.request (QueueEvent.ofCall i q.history) c.stage

/-- What an operation does when it has the lock is what its event says. -/
theorem perform_filed (b : RecordBuffer) (i : Nat) (r : QueueRequest) {history : List QueueEvent}
    (hqueue : b.incoming = (QueueEvent.waiting history).flatten)
    (hcall : QueueEvent.ofCall i history = []) :
    (b.perform r.op).1.incoming =
        (QueueEvent.waiting (history ++ (r.op.event? i b).toList)).flatten ∧
      (∀ e ∈ (r.op.event? i b).toList, e.Fits history ∧ e.party = i) ∧
      Stands i r (QueueEvent.ofCall i (history ++ (r.op.event? i b).toList)) (b.perform r.op).2 := by
  cases r with
  | push entries attempts =>
    simp only [QueueRequest.op, RecordBuffer.perform, BufferOp.event?, Option.toList_some,
      QueueEvent.waiting_concat, QueueEvent.ofCall_concat, List.forall_mem_singleton]
    refine ⟨?_, ⟨?_, rfl⟩, entries, attempts, rfl, ?_⟩
    · simp [QueueEvent.queue, hqueue]
    · simp [QueueEvent.Fits, hqueue]
    · simp [QueueEvent.follow, QueueEvent.party, hcall]
  | swap room =>
    simp only [QueueRequest.op, RecordBuffer.perform, BufferOp.event?, Option.toList_some,
      QueueEvent.waiting_concat, QueueEvent.ofCall_concat, List.forall_mem_singleton]
    refine ⟨rfl, ⟨hqueue, rfl⟩, ⟨room, rfl⟩, ?_⟩
    simp [QueueEvent.follow, QueueEvent.party, hcall]
  | reserve more =>
    simp only [QueueRequest.op, RecordBuffer.perform, BufferOp.event?, Option.toList_none,
      List.append_nil]
    refine ⟨hqueue, List.forall_mem_nil _, ?_⟩
    split
    · exact ⟨⟨more, rfl⟩, hcall⟩
    · split <;> exact ⟨⟨more, rfl⟩, hcall⟩

namespace Filed

theorem new : Filed new := ⟨rfl, fun before e after heq => by simp [Queueing.new] at heq, nofun⟩

theorem ask (h : Filed q) (i : Nat) (r : QueueRequest) : Filed (q.ask i r) where
  queue := by
    show q.buffer.incoming = (QueueEvent.waiting (q.history ++ [.asked i r])).flatten
    rw [QueueEvent.waiting_concat]
    exact h.queue
  fit := h.fit.concat trivial
  calls j c hc := by
    show Stands j c.request (QueueEvent.ofCall j (q.history ++ [.asked i r])) c.stage
    by_cases hj : j = i
    · subst hj
      obtain rfl : _ = c := Option.some.inj ((q.party_setParty_self j ⟨r, r.call⟩).symm.trans hc)
      rw [QueueEvent.ofCall_concat]
      simp only [r.call_eq]
      exact ⟨rfl, rfl, by simp [QueueEvent.follow, QueueEvent.party]⟩
    · rw [QueueEvent.ofCall_concat_of_ne (Ne.symm hj)]
      exact h.calls j c ((q.party_setParty_of_ne ⟨r, r.call⟩ hj).symm.trans hc)

/-- A step that does what its event says, and comes to where it says. -/
theorem of_advance (h : Filed q) {c : QueueCall} {o : Option QueueEvent}
    (ho : c.stage.event? i q.buffer = o)
    (hqueue : (c.stage.step q.buffer).1.incoming =
      (QueueEvent.waiting (q.history ++ o.toList)).flatten)
    (hevent : ∀ e ∈ o.toList, e.Fits q.history ∧ e.party = i)
    (hstage : Stands i c.request (QueueEvent.ofCall i (q.history ++ o.toList))
      (c.stage.step q.buffer).2) : Filed (q.advance i c) := by
  have hhistory : (q.advance i c).history = q.history ++ o.toList := by rw [history_advance, ho]
  refine ⟨by rw [hhistory]; exact hqueue, ?_, fun j c' hc' => ?_⟩
  · rw [hhistory]
    cases o with
    | none => simpa using h.fit
    | some e => exact h.fit.concat (hevent e (by simp)).1
  · rw [hhistory]
    by_cases hj : j = i
    · subst hj
      obtain rfl : _ = c' := Option.some.inj ((q.party_setParty_self j _).symm.trans hc')
      exact hstage
    · have hparty := h.calls j c' ((q.party_setParty_of_ne _ hj).symm.trans hc')
      cases o with
      | none => simpa using hparty
      | some e =>
        have he : e.party ≠ j := fun heq => hj (heq.symm.trans (hevent e (by simp)).2)
        simpa [QueueEvent.ofCall_concat_of_ne he] using hparty

theorem advance (h : Filed q) {c : QueueCall} (hc : q.party i = some c) :
    Filed (q.advance i c) := by
  obtain ⟨r, stage⟩ := c
  have hstands := h.calls i _ hc
  simp only at hstands
  -- a call that has the lock already does nothing more to the queue
  have hquiet : stage.event? i q.buffer = none →
      (stage.step q.buffer).1.incoming = q.buffer.incoming →
      Stands i r (QueueEvent.ofCall i q.history) (stage.step q.buffer).2 →
      Filed (q.advance i ⟨r, stage⟩) := fun hevent hsame hstage =>
    h.of_advance hevent (by simpa [hsame] using h.queue) nofun (by simpa using hstage)
  cases stage with
  | enter op a =>
    obtain ⟨rfl, hbudget, hcall⟩ := hstands
    cases hlock : q.buffer.lock with
    | free =>
      obtain ⟨hstep, hevent⟩ := BufferCall.step_enter_free r.op a hlock i
      obtain ⟨hqueue, hfits, hstage⟩ :=
        perform_filed { q.buffer with lock := .held } i r h.queue hcall
      refine h.of_advance hevent ?_ hfits ?_
      · rw [hstep]
        exact hqueue
      · rw [hstep]
        exact hstage
    | held =>
      obtain ⟨hbuffer, ⟨hstage, hne, hevent⟩ | ⟨a', hstage, hsame, hevent⟩⟩ :=
        BufferCall.step_enter_held r.op a hlock i
      · refine h.of_advance hevent ?_ (by simp [QueueEvent.Fits, QueueEvent.party]) ?_
        · simp only [hbuffer, Option.toList_some, QueueEvent.waiting_concat]
          exact h.queue
        · simp only [hstage, Option.toList_some, QueueEvent.ofCall_concat]
          refine ⟨?_, by simp [QueueEvent.follow, QueueEvent.party, hcall]⟩
          rw [hbudget] at hne
          cases r with
          | push entries attempts => exact ⟨entries, attempts, rfl, hne⟩
          | swap | reserve => exact (hne rfl).elim
      · refine hquiet hevent (congrArg RecordBuffer.incoming hbuffer) ?_
        rw [hstage]
        exact ⟨rfl, hsame.trans hbudget, hcall⟩
  | grow | publish | leave | finished => exact hquiet rfl rfl hstands

theorem next (h : Filed q) (i : Nat) (m : QueueMove) : Filed (q.next i m) := by
  have hmoves := q.moves_next i m
  generalize q.next i m = q' at hmoves
  cases hmoves with
  | stay => exact h
  | ask idle r => exact h.ask i r
  | advance hc => exact h.advance hc

end Filed

/-! ## The published length -/

/-- The published length is that of the queue, or that before a change that is still to be
published. -/
structure Published (q : Queueing) : Prop where
  settled : (∀ i, ¬q.Publishes i) → q.buffer.pending = q.buffer.incoming.length
  stale : ∀ i, q.Publishes i → QueueEvent.LastChange i q.buffer.pending q.history

namespace Published

theorem new : Published new := ⟨fun _ => rfl, nofun⟩

/-- Nothing is published, and the queue does not change. -/
theorem of_quiet {q' : Queueing} (h : Published q) {o : Option QueueEvent}
    (hpending : q'.buffer.pending = q.buffer.pending)
    (hincoming : q'.buffer.incoming = q.buffer.incoming)
    (hhistory : q'.history = q.history ++ o.toList) (hquiet : ∀ e ∈ o.toList, e.changes = false)
    (hpublishes : ∀ j, q'.Publishes j ↔ q.Publishes j) : Published q' where
  settled hnone := by
    rw [hpending, hincoming]
    exact h.settled fun j hj => hnone j ((hpublishes j).2 hj)
  stale j hj := by
    rw [hpending, hhistory]
    have hlast := h.stale j ((hpublishes j).1 hj)
    cases o with
    | none => simpa using hlast
    | some e => exact hlast.concat (hquiet e (by simp))

theorem advance (h : Published q) (hlocked : Locked q) (hfiled : Filed q) {c : QueueCall}
    (hc : q.party i = some c) : Published (q.advance i c) := by
  obtain ⟨r, stage⟩ := c
  have hi : q.Publishes i ↔ stage.Publishes := by
    refine ⟨fun ⟨c', hc', hpublishes⟩ => ?_, fun hpublishes => ⟨_, hc, hpublishes⟩⟩
    cases hc.symm.trans hc'
    exact hpublishes
  have hsame : ¬stage.Publishes → ¬(stage.step q.buffer).2.Publishes →
      ∀ j, (q.advance i ⟨r, stage⟩).Publishes j ↔ q.Publishes j := fun hbefore hafter j => by
    refine publishes_advance.trans ?_
    split
    · next hj => exact hj ▸ iff_of_false hafter fun hp => hbefore (hi.1 hp)
    · rfl
  cases stage with
  | enter op a =>
    cases hlock : q.buffer.lock with
    | free =>
      -- nobody has the lock, so that the published length is that of the queue
      have hnobody : ∀ j, ¬q.Publishes j := fun j hj =>
        hlocked.not_holds_of_free hlock j hj.holds
      have hlength := (h.settled hnobody).trans (congrArg List.length hfiled.queue)
      obtain ⟨hstep, hevent⟩ := BufferCall.step_enter_free op a hlock i
      have hpending : (q.advance i ⟨r, .enter op a⟩).buffer.pending = q.buffer.pending := by
        rw [buffer_advance, hstep]
        exact (RecordBuffer.perform_spec _ _).2.2
      have hchange : ∀ e, op.event? i q.buffer = some e → e.changes = true → e.party = i →
          (BufferCall.step q.buffer (.enter op a)).2.Publishes →
          Published (q.advance i ⟨r, .enter op a⟩) := fun e he hchanges hparty hpublishes => by
        have hi' : (q.advance i ⟨r, .enter op a⟩).Publishes i :=
          publishes_advance.2 (by rwa [if_pos rfl])
        refine ⟨fun hnone => (hnone i hi').elim, fun j hj => ?_⟩
        obtain rfl : j = i := by
          rw [publishes_advance] at hj
          split at hj
          · assumption
          · exact (hnobody j hj).elim
        rw [hpending, hlength, history_advance, hevent, he]
        exact ⟨q.history, e, [], rfl, hchanges, hparty, nofun, rfl⟩
      cases op with
      | append entries => exact hchange _ rfl rfl rfl (by rw [hstep]; exact trivial)
      | exchange draining room => exact hchange _ rfl rfl rfl (by rw [hstep]; exact trivial)
      | reserve more =>
        refine h.of_quiet (o := none) hpending ?_ (by rw [history_advance, hevent]; rfl) nofun
          (hsame id ?_)
        · rw [buffer_advance, hstep]
          rfl
        · rw [hstep]
          simp only [RecordBuffer.perform]
          split
          · exact id
          · split <;> exact id
    | held =>
      obtain ⟨hbuffer, hstage⟩ := BufferCall.step_enter_held op a hlock i
      have hquiet : ∀ o, (BufferCall.enter op a).event? i q.buffer = o →
          (∀ e ∈ o.toList, e.changes = false) →
          ¬((BufferCall.enter op a).step q.buffer).2.Publishes →
          Published (q.advance i ⟨r, .enter op a⟩) := fun o ho he hafter =>
        h.of_quiet (by rw [buffer_advance, hbuffer]) (by rw [buffer_advance, hbuffer])
          (by rw [history_advance, ho]) he (hsame id hafter)
      rcases hstage with ⟨hstage, -, hevent⟩ | ⟨a', hstage, -, hevent⟩
      · exact hquiet _ hevent (by simp [QueueEvent.changes]) (by rw [hstage]; exact id)
      · exact hquiet _ hevent nofun (by rw [hstage]; exact id)
  | publish reply =>
    refine ⟨fun _ => rfl, fun j hj => ?_⟩
    rw [publishes_advance] at hj
    split at hj
    · exact hj.elim
    · next hne => exact (hlocked.not_holds_of_ne (hi.2 trivial).holds hne hj.holds).elim
  | grow | leave | finished =>
    exact h.of_quiet (o := none) rfl rfl rfl nofun (hsame id id)

theorem next (h : Published q) (hlocked : Locked q) (hfiled : Filed q) (i : Nat) (m : QueueMove) :
    Published (q.next i m) := by
  have hmoves := q.moves_next i m
  generalize q.next i m = q' at hmoves
  cases hmoves with
  | stay => exact h
  | ask idle r =>
    have hask : ∀ e ∈ (some (QueueEvent.asked i r)).toList, e.changes = false :=
      List.forall_mem_singleton.2 rfl
    refine h.of_quiet (o := some (.asked i r)) rfl rfl rfl hask fun j =>
      publishes_ask.trans ⟨And.right, fun hj => ⟨?_, hj⟩⟩
    rintro rfl
    exact not_holds_of_idle idle hj.holds
  | advance hc => exact h.advance hlocked hfiled hc

end Published

/-! ## Runs -/

/-- What every run keeps. -/
structure Kept (q : Queueing) : Prop where
  locked : Locked q
  filed : Filed q
  published : Published q

theorem Kept.new : Kept new := ⟨.new, .new, .new⟩

theorem Kept.next (h : Kept q) (i : Nat) (m : QueueMove) : Kept (q.next i m) :=
  ⟨h.locked.next i m, h.filed.next i m, h.published.next h.locked h.filed i m⟩

theorem kept_run (h : Kept q) (moves : List (Nat × QueueMove)) : Kept (q.run moves) := by
  induction moves generalizing q with
  | nil => exact h
  | cons m moves ih => exact ih (h.next m.1 m.2)

/-- A buffer and its parties after any moves. -/
structure KeepsQueue (q : Queueing) : Prop where
  /-- The lock is held while one party has it, and free while none has. -/
  exclusive : {i | q.Holds i}.encard = if q.buffer.lock.isLocked then 1 else 0
  /-- While the lock is free, the published length is that of the queue. -/
  length_of_free : q.buffer.lock = .free → q.buffer.pending = q.buffer.incoming.length
  /-- A length that is read at any time is that of the queue, or that before the last change,
  if the party that has made it is about to publish the new one. -/
  length_read : q.buffer.pending = q.buffer.incoming.length ∨
    ∃ i, q.Publishes i ∧ QueueEvent.LastChange i q.buffer.pending q.history
  /-- The queue is what was appended since it was last exchanged. -/
  queue : q.buffer.incoming = (QueueEvent.waiting q.history).flatten
  /-- An append comes to the length of the queue that it leaves. -/
  appends : ∀ before i entries length after,
    q.history = before ++ .appended i entries length :: after →
      length = ((QueueEvent.waiting before).flatten ++ entries).length
  /-- An exchange gives what was appended since the one before it. -/
  exchanges : ∀ before i entries after, q.history = before ++ .drained i entries :: after →
    entries = (QueueEvent.waiting before).flatten
  /-- Batches are given whole, in order and each in one exchange, or are all in the queue. -/
  batches : ∃ groups : List (List (List Entry)),
    QueueEvent.batches q.history = groups.flatten ++ QueueEvent.waiting q.history ∧
      QueueEvent.exchanged q.history = groups.map List.flatten
  /-- What the exchanges gave, and then the queue, is what was appended. -/
  conserved : (QueueEvent.exchanged q.history).flatten ++ q.buffer.incoming =
    (QueueEvent.batches q.history).flatten
  /-- A finished call has done what it replies and nothing else: it has appended its batch, and
  replies with the length of the queue just after that; it has exchanged the queue, and replies
  with what was in it; or it has done nothing. -/
  replies : ∀ i r reply, q.party i = some ⟨r, .finished reply⟩ →
    Tells i r (QueueEvent.ofCall i q.history) reply
  /-- An attempt at the lock while it is held changes nothing. -/
  refusals : ∀ i r op a, q.party i = some ⟨r, .enter op a⟩ → q.buffer.lock = .held →
    (q.next i .step).buffer = q.buffer

theorem Locked.encard_holds (h : Locked q) :
    {i | q.Holds i}.encard = if q.buffer.lock.isLocked then 1 else 0 := by
  cases hlock : q.buffer.lock with
  | free =>
    have hnone : {i | q.Holds i} = ∅ :=
      Set.eq_empty_of_forall_notMem (h.not_holds_of_free hlock)
    simp [hnone, SpinLock.isLocked]
  | held =>
    obtain ⟨i, hi⟩ := h.holder hlock
    have hone : {i | q.Holds i} = {i} :=
      Set.eq_singleton_iff_unique_mem.2 ⟨hi, fun j hj => h.unique j i hj hi⟩
    simp [hone, SpinLock.isLocked]

theorem Kept.keepsQueue (h : Kept q) : KeepsQueue q where
  exclusive := h.locked.encard_holds
  length_of_free hfree :=
    h.published.settled fun i hi => h.locked.not_holds_of_free hfree i hi.holds
  length_read := by
    by_cases hnone : ∃ i, q.Publishes i
    · obtain ⟨i, hi⟩ := hnone
      exact .inr ⟨i, hi, h.published.stale i hi⟩
    · exact .inl (h.published.settled (not_exists.1 hnone))
  queue := h.filed.queue
  appends before i entries length after heq := by
    rw [List.length_append]
    exact h.filed.fit before _ after heq
  exchanges before i entries after heq := h.filed.fit before _ after heq
  batches := h.filed.fit.groups
  conserved := by
    obtain ⟨groups, hbatches, hexchanged⟩ := h.filed.fit.groups
    rw [hbatches, hexchanged, h.filed.queue, List.flatten_append, List.flatten_flatten]
  replies i r reply hc := h.filed.calls i _ hc
  refusals i r op a hc hheld := by
    have hnext : q.next i .step = q.advance i ⟨r, .enter op a⟩ := by
      simp only [Queueing.next, hc]
    rw [hnext, buffer_advance]
    exact (BufferCall.step_enter_held op a hheld i).1

/-- Any number of parties that append, exchange the queue and make room, in any order of their
steps and with any numbers of attempts at the lock. -/
theorem every_run_keeps_queue (moves : List (Nat × QueueMove)) : KeepsQueue (new.run moves) :=
  (kept_run .new moves).keepsQueue

/-- A length that is read while the second append is about to publish its own. -/
example :
    let entry : Nat → Entry := fun n => .tagged (.utc n) .info "t" [.text "x"]
    let q := new.run [(0, .ask (.push [entry 1] 1)), (0, .step), (0, .step), (0, .step),
      (1, .ask (.push [entry 2, entry 3] 1)), (1, .step)]
    q.buffer.pending = 1 ∧ q.buffer.incoming.length = 3 := by
  decide

end Queueing

end LogPipeline
