import LogPipeline.Proofs.Consumers

/-!
# Starting and stopping

Only the caller that holds the lifecycle lock starts or stops a consumer. What
it has left to do is an `Errand`, and each errand goes with what is known of
the pipeline at that point (`Errand.Fits`): while a consumer is started there is
no other that has not ended, and while one is stopped it is the last one
started. All other callers are at ordinary tasks, or about to take the lock.

`orderly_run` says so for the state after any run; with it, at most one
consumer has not ended (`ended_of_ne_last`).
-/

namespace LogPipeline

open Sync

/-! ## Ordinary tasks -/

/-- A caller's call on the queue: it appends entries, or makes room. So many
entries are counted as dropped if it is refused. -/
def BufferCall.Posts (stake : Nat) : BufferCall → Prop
  | .enter (.append entries) _ => stake = entries.length
  | .enter (.reserve _) a => a.budget = 0
  | .grow _ => True
  | .publish (.queued _) => True
  | .leave (.queued _) | .leave .reserved | .leave .overflow => True
  | _ => False

/-- A task that has nothing to do with starting and stopping. -/
def Task.Ordinary : Task → Prop
  | .onBuffer c stake => c.Posts stake
  | .onEvent name c => name = .dump ∧ c.Serves .broadcast
  | .lockLifecycle | .unlockLifecycle | .checkStopped | .spawn | .takeWorker | .join _ => False
  | _ => True

namespace BufferCall

/-- A caller's call on the queue ends or goes on as one. -/
theorem Posts.step {stake : Nat} {c : BufferCall} (h : c.Posts stake) (b : RecordBuffer) :
    (∃ reply, (c.step b).2 = .finished reply) ∨ (c.step b).2.Posts stake := by
  cases c with
  | enter op a =>
    simp only [BufferCall.step]
    split
    · cases op with
      | append entries => exact .inr trivial
      | exchange entries room => exact h.elim
      | reserve more =>
        simp only [RecordBuffer.perform]
        split
        · exact .inr trivial
        · split <;> exact .inr trivial
    · exact .inl ⟨_, rfl⟩
    · next hagain =>
      cases op with
      | append entries => exact .inr h
      | exchange entries room => exact h.elim
      | reserve more => exact .inr ((SpinLock.attempt_again hagain).trans h)
  | grow needed => exact .inr trivial
  | publish reply => cases reply <;> first | exact .inr trivial | exact h.elim
  | leave reply => exact .inl ⟨reply, rfl⟩
  | finished reply => exact h.elim

end BufferCall

namespace Task

theorem ordinary_afterBuffer (stake : Nat) (reply : BufferReply) :
    ∀ t ∈ afterBuffer stake reply, t.Ordinary := by
  cases reply <;> simp [afterBuffer, Ordinary]

/-- An ordinary task leads to ordinary tasks. -/
theorem Ordinary.step {t : Task} (h : t.Ordinary) (i : Nat) (p : Pipeline) :
    ∀ t' ∈ (t.step i p).next, t'.Ordinary := by
  cases t with
  | checkSwitch r =>
    simp only [Task.step, List.mem_singleton, forall_eq]
    split <;> trivial
  | checkLevel r =>
    simp only [Task.step]
    split <;> simp [Ordinary]
  | checkBlocks level blocks =>
    simp only [Task.step]
    split <;> simp [Ordinary]
  | compose r => simp [Task.step, Ordinary]
  | chooseMode batch => simp [Task.step, Ordinary, BufferCall.append, BufferCall.Posts]
  | onBuffer c stake =>
    have hc := BufferCall.Posts.step h p.buffer
    simp only [Task.step]
    split
    · exact ordinary_afterBuffer stake _
    · next hnone =>
      rcases hc with ⟨reply, hreply⟩ | hposts
      · simp [hreply, BufferCall.reply?] at hnone
      · simpa [Ordinary] using hposts
  | checkDumping queued =>
    simp only [Task.step]
    split <;> simp [Ordinary]
  | checkThreshold queued =>
    simp only [Task.step]
    split <;> simp [Ordinary, EventCall.serves_start]
  | onEvent name c =>
    obtain ⟨rfl, hc⟩ := h
    simp only [Task.step]
    split
    · simp
    · simpa [Ordinary] using hc.step _
  | countDropped n => simp [Task.step]
  | store setting => simp [Task.step]
  | _ => exact h.elim

/-- An ordinary task changes neither who starts and stops the pipeline nor the
consumers, and of the events the one for dumping only. -/
theorem Ordinary.frame {t : Task} (h : t.Ordinary) (i : Nat) (p : Pipeline) :
    (t.step i p).pipeline.worker = p.worker ∧
      (t.step i p).pipeline.lifecycle = p.lifecycle ∧
      (t.step i p).pipeline.consumers = p.consumers ∧
      (t.step i p).pipeline.stopEvent = p.stopEvent ∧
      (t.step i p).pipeline.doneEvent = p.doneEvent := by
  apply pipeline_cases (P := fun p' => p'.worker = p.worker ∧ p'.lifecycle = p.lifecycle ∧
    p'.consumers = p.consumers ∧ p'.stopEvent = p.stopEvent ∧ p'.doneEvent = p.doneEvent)
  case onEvent =>
    rintro name c rfl
    obtain ⟨rfl, -⟩ := h
    exact ⟨rfl, rfl, rfl, rfl, rfl⟩
  case store =>
    intro setting _
    cases setting <;> exact ⟨rfl, rfl, rfl, rfl, rfl⟩
  case lockLifecycle | unlockLifecycle | spawn | takeWorker =>
    rintro rfl
    exact h.elim
  case join =>
    rintro k rfl
    exact h.elim
  all_goals
    intros
    exact ⟨rfl, rfl, rfl, rfl, rfl⟩

end Task

/-! ## Errands -/

/-- What the caller that holds the lifecycle lock has left to do. -/
inductive Errand where
  | checking
  | taking
  | rearmingStop (c : EventCall)
  | rearmingDump (c : EventCall)
  | rearmingDone (c : EventCall)
  | spawning
  | closingStop (h : Nat) (c : EventCall)
  | closingDump (h : Nat) (c : EventCall)
  | awaitingDone (h : Nat) (c : EventCall)
  | joining (h : Nat)
  | leaving

/-- No consumer is left that has not ended. -/
def Pipeline.AllEnded (p : Pipeline) : Prop := ∀ c ∈ p.consumers, c.stage = .ended

/-- A consumer is the one started last, and all others have ended. -/
def Pipeline.Alone (p : Pipeline) (h : Nat) : Prop :=
  h + 1 = p.consumers.length ∧ ∀ j c, p.consumers[j]? = some c → j ≠ h → c.stage = .ended

/-- Nobody starts or stops the pipeline: there is a consumer to be stopped,
alone and with the stop event open, or all of them have ended. -/
def Pipeline.Settled (p : Pipeline) : Prop :=
  match p.worker with
  | none => p.AllEnded
  | some h => p.Alone h ∧ p.stopEvent.live.isSome

namespace Errand

/-- The tasks of an errand. -/
def tasks : Errand → List Task
  | checking => [.checkStopped, .unlockLifecycle]
  | taking => [.takeWorker, .unlockLifecycle]
  | rearmingStop c =>
    [.onEvent .stop c, .onEvent .dump (.start .reopen), .onEvent .done (.start .reopen), .spawn,
      .unlockLifecycle]
  | rearmingDump c =>
    [.onEvent .dump c, .onEvent .done (.start .reopen), .spawn, .unlockLifecycle]
  | rearmingDone c => [.onEvent .done c, .spawn, .unlockLifecycle]
  | spawning => [.spawn, .unlockLifecycle]
  | closingStop h c =>
    [.onEvent .stop c, .onEvent .dump (.start .close), .onEvent .done (.start (.wait .untimed)),
      .join h, .unlockLifecycle]
  | closingDump h c =>
    [.onEvent .dump c, .onEvent .done (.start (.wait .untimed)), .join h, .unlockLifecycle]
  | awaitingDone h c => [.onEvent .done c, .join h, .unlockLifecycle]
  | joining h => [.join h, .unlockLifecycle]
  | leaving => [.unlockLifecycle]

/-- What is known of the pipeline while its lifecycle lock is held for an
errand. -/
def Fits (p : Pipeline) : Errand → Prop
  | checking | taking | leaving => p.Settled
  | rearmingStop c => p.worker = none ∧ p.AllEnded ∧ EventCall.Rearming p.stopEvent c
  | rearmingDump c | rearmingDone c =>
    p.worker = none ∧ p.AllEnded ∧ p.stopEvent.live.isSome ∧ c.Serves .reopen
  | spawning => p.worker = none ∧ p.AllEnded ∧ p.stopEvent.live.isSome
  | closingStop h c | closingDump h c => p.worker = none ∧ p.Alone h ∧ c.Serves .close
  | awaitingDone h c => p.worker = none ∧ p.Alone h ∧ c.Serves (.wait .untimed)
  | joining h => p.worker = none ∧ p.Alone h

end Errand

/-! ## What lasts from one state to another -/

/-- A later state of a pipeline that is being started or stopped by nobody else:
the same consumers, none of them back from its end, and the stop event as open
as it was. -/
structure Pipeline.Continues (p p' : Pipeline) : Prop where
  worker : p'.worker = p.worker
  stopLive : p'.stopEvent.live = p.stopEvent.live
  length : p'.consumers.length = p.consumers.length
  ended : ∀ (j : Nat) (c c' : Consumer), p.consumers[j]? = some c →
    p'.consumers[j]? = some c' → c.stage = .ended → c'.stage = .ended

namespace Pipeline

theorem settled_of_none {p : Pipeline} (hw : p.worker = none) (h : p.AllEnded) : p.Settled := by
  simpa only [Settled, hw] using h

theorem continues_of_eq {p p' : Pipeline} (hworker : p'.worker = p.worker)
    (hconsumers : p'.consumers = p.consumers) (hstop : p'.stopEvent.live = p.stopEvent.live) :
    p.Continues p' where
  worker := hworker
  stopLive := hstop
  length := by rw [hconsumers]
  ended j c c' hc hc' h := by
    rw [hconsumers, hc] at hc'
    cases hc'
    exact h

theorem Continues.allEnded {p p' : Pipeline} (hc : p.Continues p') (h : p.AllEnded) :
    p'.AllEnded := by
  intro c' hc'
  obtain ⟨j, hj, rfl⟩ := List.mem_iff_getElem.1 hc'
  have hj' : j < p.consumers.length := hc.length ▸ hj
  exact hc.ended j _ _ (List.getElem?_eq_getElem hj') (List.getElem?_eq_getElem hj)
    (h _ (List.getElem_mem hj'))

theorem Continues.alone {p p' : Pipeline} (hc : p.Continues p') {h : Nat} (ha : p.Alone h) :
    p'.Alone h := by
  refine ⟨hc.length ▸ ha.1, fun j c' hj hne => ?_⟩
  obtain ⟨hlt, rfl⟩ := List.getElem?_eq_some_iff.1 hj
  have hlt' : j < p.consumers.length := hc.length ▸ hlt
  have hj' := List.getElem?_eq_getElem hlt'
  exact hc.ended j _ _ hj' hj (ha.2 j _ hj' hne)

theorem Continues.settled {p p' : Pipeline} (hc : p.Continues p') (h : p.Settled) :
    p'.Settled := by
  unfold Settled at h ⊢
  rw [hc.worker, hc.stopLive]
  cases hw : p.worker with
  | none =>
    simp only [hw] at h
    exact hc.allEnded h
  | some k =>
    simp only [hw] at h
    exact ⟨hc.alone h.1, h.2⟩

/-- Once the last consumer has ended, all have. -/
theorem Alone.allEnded {p : Pipeline} {h : Nat} (ha : p.Alone h)
    (hended : ∀ c, p.consumers[h]? = some c → c.stage = .ended) : p.AllEnded := by
  intro c hc
  obtain ⟨j, hj⟩ := List.getElem?_of_mem hc
  by_cases hjh : j = h
  · subst j
    exact hended c hj
  · exact ha.2 j c hj hjh

/-- A new consumer is alone when all before it have ended. -/
theorem AllEnded.alone_concat {p p' : Pipeline} (h : p.AllEnded)
    (he : p'.consumers = p.consumers ++ [.new]) : p'.Alone p.consumers.length := by
  refine ⟨by simp [he], fun j c hj hne => ?_⟩
  rw [he] at hj
  have hlt : j < p.consumers.length := by
    have := (List.getElem?_eq_some_iff.1 hj).1
    simp only [List.length_append, List.length_singleton] at this
    omega
  rw [List.getElem?_append_left hlt] at hj
  exact h c (List.mem_of_getElem? hj)

end Pipeline

theorem Errand.Fits.continues {p p' : Pipeline} (hc : p.Continues p') {e : Errand}
    (h : e.Fits p) : e.Fits p' := by
  cases e with
  | checking | taking | leaving => exact hc.settled h
  | rearmingStop c =>
    exact ⟨hc.worker.trans h.1, hc.allEnded h.2.1, h.2.2.serves, hc.stopLive ▸ h.2.2.armed⟩
  | rearmingDump c | rearmingDone c =>
    exact ⟨hc.worker.trans h.1, hc.allEnded h.2.1, hc.stopLive ▸ h.2.2.1, h.2.2.2⟩
  | spawning => exact ⟨hc.worker.trans h.1, hc.allEnded h.2.1, hc.stopLive ▸ h.2.2⟩
  | closingStop k c | closingDump k c | awaitingDone k c =>
    exact ⟨hc.worker.trans h.1, hc.alone h.2.1, h.2.2⟩
  | joining k => exact ⟨hc.worker.trans h.1, hc.alone h.2⟩

/-! ## Steps of an errand -/

/-- A call on an event, as a task: it is replaced by what is left of it. -/
theorem Task.step_onEvent (i : Nat) (p : Pipeline) (name : EventName) (c : EventCall) :
    (Task.step i p (.onEvent name c)).pipeline = p.setEvent name (c.step (p.event name)).1 ∧
      ((Task.step i p (.onEvent name c)).next = [] ∧
          (∃ reply, (c.step (p.event name)).2 = .finished reply) ∨
        (Task.step i p (.onEvent name c)).next = [.onEvent name (c.step (p.event name)).2]) := by
  simp only [Task.step]
  split
  · next reply hreply => exact ⟨rfl, .inl ⟨rfl, reply, hreply⟩⟩
  · exact ⟨rfl, .inr rfl⟩

/-- A step of the caller that holds the lifecycle lock leads to its next errand,
or gives the lock back. -/
theorem Errand.step {p : Pipeline} {i : Nat} {e : Errand} {t : Task} {rest : List Task}
    (hlock : p.lifecycle = some i) (ht : e.tasks = t :: rest) (h : e.Fits p) :
    (∃ e' : Errand, (t.step i p).next ++ rest = e'.tasks ∧ e'.Fits (t.step i p).pipeline ∧
        (t.step i p).pipeline.lifecycle = some i) ∨
      ((t.step i p).next ++ rest = [] ∧ (t.step i p).pipeline.lifecycle = none ∧
        (t.step i p).pipeline.Settled) := by
  cases e with
  | checking =>
    cases ht
    refine .inl ?_
    simp only [Task.step]
    split
    · exact ⟨.leaving, rfl, h, hlock⟩
    · next hw =>
      have hnone : p.worker = none := by simpa using hw
      simp only [Fits, Pipeline.Settled, hnone] at h
      exact ⟨.rearmingStop (.start .reopen), rfl, ⟨hnone, h, EventCall.rearming_start _⟩, hlock⟩
  | taking =>
    cases ht
    refine .inl ?_
    simp only [Task.step]
    split
    · next k hk =>
      simp only [Fits, Pipeline.Settled, hk] at h
      exact ⟨.closingStop k (.start .close), rfl, ⟨rfl, h.1, EventCall.serves_start _⟩, hlock⟩
    · exact ⟨.leaving, rfl, h, hlock⟩
  | rearmingStop c =>
    cases ht
    refine .inl ?_
    obtain ⟨hp, hnext⟩ := Task.step_onEvent i p .stop c
    obtain ⟨hworker, hended, hrearming⟩ := h
    have hrearmed := hrearming.step
    rw [hp]
    rcases hnext with ⟨hnext, reply, hreply⟩ | hnext <;> rw [hnext]
    · refine ⟨.rearmingDump (.start .reopen), rfl, ⟨hworker, hended, ?_, EventCall.serves_start _⟩,
        hlock⟩
      rw [show p.event .stop = p.stopEvent from rfl] at hreply
      exact (hreply ▸ hrearmed).isSome_of_finished
    · exact ⟨.rearmingStop _, rfl, ⟨hworker, hended, hrearmed⟩, hlock⟩
  | rearmingDump c =>
    cases ht
    refine .inl ?_
    obtain ⟨hp, hnext⟩ := Task.step_onEvent i p .dump c
    obtain ⟨hworker, hended, hopen, hserves⟩ := h
    rw [hp]
    rcases hnext with ⟨hnext, -⟩ | hnext <;> rw [hnext]
    · exact ⟨.rearmingDone (.start .reopen), rfl, ⟨hworker, hended, hopen,
        EventCall.serves_start _⟩, hlock⟩
    · exact ⟨.rearmingDump _, rfl, ⟨hworker, hended, hopen, hserves.step _⟩, hlock⟩
  | rearmingDone c =>
    cases ht
    refine .inl ?_
    obtain ⟨hp, hnext⟩ := Task.step_onEvent i p .done c
    obtain ⟨hworker, hended, hopen, hserves⟩ := h
    rw [hp]
    rcases hnext with ⟨hnext, -⟩ | hnext <;> rw [hnext]
    · exact ⟨.spawning, rfl, ⟨hworker, hended, hopen⟩, hlock⟩
    · exact ⟨.rearmingDone _, rfl, ⟨hworker, hended, hopen, hserves.step _⟩, hlock⟩
  | spawning =>
    cases ht
    obtain ⟨-, hended, hopen⟩ := h
    exact .inl ⟨.leaving, rfl, ⟨hended.alone_concat rfl, hopen⟩, hlock⟩
  | closingStop k c =>
    cases ht
    refine .inl ?_
    obtain ⟨hp, hnext⟩ := Task.step_onEvent i p .stop c
    obtain ⟨hworker, halone, hserves⟩ := h
    rw [hp]
    rcases hnext with ⟨hnext, -⟩ | hnext <;> rw [hnext]
    · exact ⟨.closingDump k (.start .close), rfl, ⟨hworker, halone, EventCall.serves_start _⟩,
        hlock⟩
    · exact ⟨.closingStop k _, rfl, ⟨hworker, halone, hserves.step _⟩, hlock⟩
  | closingDump k c =>
    cases ht
    refine .inl ?_
    obtain ⟨hp, hnext⟩ := Task.step_onEvent i p .dump c
    obtain ⟨hworker, halone, hserves⟩ := h
    rw [hp]
    rcases hnext with ⟨hnext, -⟩ | hnext <;> rw [hnext]
    · exact ⟨.awaitingDone k (.start (.wait .untimed)), rfl, ⟨hworker, halone,
        EventCall.serves_start _⟩, hlock⟩
    · exact ⟨.closingDump k _, rfl, ⟨hworker, halone, hserves.step _⟩, hlock⟩
  | awaitingDone k c =>
    cases ht
    refine .inl ?_
    obtain ⟨hp, hnext⟩ := Task.step_onEvent i p .done c
    obtain ⟨hworker, halone, hserves⟩ := h
    rw [hp]
    rcases hnext with ⟨hnext, -⟩ | hnext <;> rw [hnext]
    · exact ⟨.joining k, rfl, ⟨hworker, halone⟩, hlock⟩
    · exact ⟨.awaitingDone k _, rfl, ⟨hworker, halone, hserves.step _⟩, hlock⟩
  | joining k =>
    cases ht
    refine .inl ?_
    simp only [Task.step]
    split
    · next hk =>
      have hended : p.AllEnded := h.2.allEnded fun c hc => by
        rw [hk] at hc
        cases hc
        rfl
      refine ⟨.leaving, rfl, ?_, ?_⟩
      · split <;> exact Pipeline.settled_of_none h.1 hended
      · split <;> exact hlock
    · exact ⟨.joining k, rfl, h, hlock⟩
  | leaving =>
    cases ht
    exact .inr ⟨rfl, rfl, h⟩

theorem Errand.tasks_ne_nil (e : Errand) : e.tasks ≠ [] := by
  cases e <;> simp [tasks]

/-! ## The invariant -/

/-- A caller that does not hold the lifecycle lock is about to take it, or at
tasks that need none. -/
def Caller.Waits (c : Caller) : Prop :=
  c.tasks = [.lockLifecycle, .checkStopped, .unlockLifecycle] ∨
    c.tasks = [.lockLifecycle, .takeWorker, .unlockLifecycle] ∨ ∀ t ∈ c.tasks, t.Ordinary

/-- The caller that holds the lifecycle lock is at an errand that fits the
pipeline, all others need it not or wait for it, and while nobody holds it the
pipeline is settled. -/
structure System.Orderly (s : System) : Prop where
  holder : ∀ i, s.pipeline.lifecycle = some i →
    ∃ e : Errand, (s.caller i).tasks = e.tasks ∧ e.Fits s.pipeline
  others : ∀ i, s.pipeline.lifecycle ≠ some i → (s.caller i).Waits
  settled : s.pipeline.lifecycle = none → s.pipeline.Settled

theorem Call.waits_begin (call : Call) : (Caller.begin call).Waits := by
  cases call with
  | start => exact .inl rfl
  | stop => exact .inr (.inl rfl)
  | log r =>
    refine .inr (.inr ?_)
    simp only [Caller.begin, tasks]
    split <;> simp [Task.Ordinary]
  | apply c =>
    refine .inr (.inr ?_)
    simp only [Caller.begin, tasks, applyTasks, switchFileTasks, startDumpTasks]
    split <;> simp [Task.Ordinary, BufferCall.reserve, BufferCall.Posts, Acquisition.start]
  | emptyLine => exact .inr (.inr (by simp [Caller.begin, tasks, Task.Ordinary]))
  | startDump path cap threshold interval =>
    exact .inr (.inr (by simp [Caller.begin, tasks, startDumpTasks, Task.Ordinary,
      BufferCall.reserve, BufferCall.Posts, Acquisition.start]))
  | stopDump =>
    exact .inr (.inr (by simp [Caller.begin, tasks, Task.Ordinary, EventCall.serves_start]))
  | _ => exact .inr (.inr (by simp [Caller.begin, tasks, switchFileTasks, Task.Ordinary]))

namespace System.Orderly

/-- A pipeline that nobody starts or stops meanwhile stays as orderly. -/
theorem continues {s : System} (h : s.Orderly) {p' : Pipeline} (hc : s.pipeline.Continues p')
    (hlock : p'.lifecycle = s.pipeline.lifecycle) : Orderly { s with pipeline := p' } where
  holder i hi := by
    obtain ⟨e, he, hfits⟩ := h.holder i (hlock ▸ hi)
    exact ⟨e, he, hfits.continues hc⟩
  others i hi := h.others i (hlock ▸ hi)
  settled hn := hc.settled (h.settled (hlock ▸ hn))

/-- A caller that does not hold the lifecycle lock may come to any point where
it waits for it or needs it not. -/
theorem setCaller {s : System} (h : s.Orderly) {i : Nat} {c : Caller}
    (hi : s.pipeline.lifecycle ≠ some i) (hc : c.Waits) : (s.setCaller i c).Orderly where
  holder j hj := by
    obtain ⟨e, he, hfits⟩ := h.holder j hj
    have hji : j ≠ i := fun hji => hi (hji ▸ hj)
    exact ⟨e, by rw [setCaller_caller_of_ne s c hji]; exact he, hfits⟩
  others := forall_setCaller (P := fun j c => s.pipeline.lifecycle ≠ some j → c.Waits)
    (fun _ => hc) fun j _ => h.others j
  settled := h.settled

/-- A caller with nothing to do does not hold the lifecycle lock. -/
theorem lifecycle_ne_of_nil {s : System} (h : s.Orderly) {i : Nat}
    (hi : (s.caller i).tasks = []) : s.pipeline.lifecycle ≠ some i := by
  intro hlock
  obtain ⟨e, he, -⟩ := h.holder i hlock
  exact e.tasks_ne_nil (he.symm.trans hi)

/-- A step of the caller that holds the lifecycle lock. -/
theorem afterTask_holder {s : System} (h : s.Orderly) {i : Nat} {t : Task} {rest : List Task}
    (hlock : s.pipeline.lifecycle = some i) (ht : (s.caller i).tasks = t :: rest) :
    (s.afterTask i t rest).Orderly := by
  obtain ⟨e, he, hfits⟩ := h.holder i hlock
  have hothers : ∀ j, j ≠ i → (s.caller j).Waits := fun j hj =>
    h.others j fun hj' => hj (by rw [hlock] at hj'; cases hj'; rfl)
  rcases e.step hlock (he.symm.trans ht) hfits with ⟨e', htasks, hfits', hlock'⟩ |
    ⟨hnil, hlock', hsettled⟩
  · refine ⟨fun j hj => ?_, ?_, fun hn => ?_⟩
    · obtain rfl : j = i := by
        have : some j = some i := (Eq.symm hj).trans hlock'
        cases this
        rfl
      exact ⟨e', by simpa [afterTask] using htasks, hfits'⟩
    · refine forall_setCaller (P := fun j c => _ → c.Waits) ?_ fun j hj _ => hothers j hj
      exact fun hne => (hne hlock').elim
    · cases (Eq.symm hlock').trans hn
  · refine ⟨fun j hj => ?_, ?_, fun _ => hsettled⟩
    · cases (Eq.symm hlock').trans hj
    · refine forall_setCaller (P := fun j c => _ → c.Waits) ?_ fun j hj _ => hothers j hj
      exact fun _ => .inr (.inr (by simp [hnil]))

/-- A step of a caller that is about to take the lifecycle lock. -/
theorem afterTask_lock {s : System} (h : s.Orderly) {i : Nat} {e : Errand} {rest : List Task}
    (hrest : rest = e.tasks) (hfits : s.pipeline.Settled → e.Fits s.pipeline)
    (hwaits : Caller.Waits ⟨.lockLifecycle :: rest, none⟩)
    (hlock : s.pipeline.lifecycle ≠ some i) : (s.afterTask i .lockLifecycle rest).Orderly := by
  cases hnone : s.pipeline.lifecycle with
  | none =>
    have hstep : Task.step i s.pipeline .lockLifecycle =
        ⟨{ s.pipeline with lifecycle := some i }, [], none⟩ := by simp [Task.step, hnone]
    simp only [afterTask, hstep, List.nil_append]
    have hcontinues : s.pipeline.Continues { s.pipeline with lifecycle := some i } :=
      Pipeline.continues_of_eq rfl rfl rfl
    refine ⟨fun j hj => ?_, ?_, fun hn => by cases hn⟩
    · obtain rfl : i = j := by cases hj; rfl
      exact ⟨e, by simpa using hrest, (hfits (h.settled hnone)).continues hcontinues⟩
    · refine forall_setCaller (P := fun j c => _ → c.Waits) ?_ fun j _ _ =>
        h.others j (by simp [hnone])
      exact fun hne => (hne rfl).elim
  | some k =>
    have hstep : Task.step i s.pipeline .lockLifecycle =
        ⟨s.pipeline, [.lockLifecycle], none⟩ := by simp [Task.step, hnone]
    simp only [afterTask, hstep, List.singleton_append]
    exact h.setCaller (s := { s with pipeline := s.pipeline }) hlock hwaits

/-- A step of a caller at an ordinary task. -/
theorem afterTask_ordinary {s : System} (h : s.Orderly) {i : Nat} {t : Task} {rest : List Task}
    (hlock : s.pipeline.lifecycle ≠ some i) (hall : ∀ t' ∈ t :: rest, t'.Ordinary) :
    (s.afterTask i t rest).Orderly := by
  have ht := hall t List.mem_cons_self
  obtain ⟨hworker, hlock', hconsumers, hstop, -⟩ := ht.frame i s.pipeline
  have hcontinues := Pipeline.continues_of_eq hworker hconsumers (congrArg (·.live) hstop)
  refine (h.continues hcontinues hlock').setCaller (hlock'.symm ▸ hlock) (.inr (.inr ?_))
  intro t' ht'
  rcases List.mem_append.1 ht' with ht' | ht'
  · exact ht.step i s.pipeline t' ht'
  · exact hall t' (List.mem_cons_of_mem t ht')

end System.Orderly

namespace Pipeline

/-- A consumer that takes a step, or whose wait is over, does not come back from
its end. -/
theorem continues_set {p p' : Pipeline} {j : Nat} {c : Consumer}
    (hc : p.consumers[j]? = some c) (c' : Consumer)
    (hended : c.stage = .ended → c'.stage = .ended)
    (hworker : p'.worker = p.worker) (hconsumers : p'.consumers = p.consumers.set j c')
    (hstop : p'.stopEvent.live = p.stopEvent.live) : p.Continues p' where
  worker := hworker
  stopLive := hstop
  length := by rw [hconsumers, List.length_set]
  ended k d d' hd hd' h := by
    rw [hconsumers, List.getElem?_set] at hd'
    split at hd'
    · next hjk =>
      subst hjk
      rw [hc] at hd
      cases hd
      split at hd'
      · cases hd'
        exact hended h
      · cases hd'
    · rw [hd] at hd'
      cases hd'
      exact h

end Pipeline

namespace System

theorem continues_afterConsumer {s : System} {j : Nat} {c : Consumer}
    (hc : s.pipeline.consumers[j]? = some c) (hsound : c.Sound) :
    s.pipeline.Continues (s.afterConsumer j c).pipeline := by
  refine Pipeline.continues_set hc (c.step s.pipeline).2 (fun h => ?_)
    (Consumer.step_worker _ _) ?_ (hsound.stop_live_step s.pipeline)
  · rw [Consumer.step_of_ended h]
    exact h
  · simp only [afterConsumer, Consumer.step_consumers]

theorem continues_afterTimer {s : System} {j : Nat} {c : Consumer}
    (hc : s.pipeline.consumers[j]? = some c) :
    s.pipeline.Continues (s.afterTimer j c).pipeline := by
  refine Pipeline.continues_set hc _ (fun h => ?_) rfl rfl rfl
  rw [Consumer.expire_of_ended h]
  exact h

theorem orderly_new (world : World) : (new world).Orderly where
  holder i hi := by cases hi
  others i _ := .inr (.inr (by simp [new, Caller.idle]))
  settled _ := by simp [new, Pipeline.new, Pipeline.Settled, Pipeline.AllEnded]

theorem Orderly.afterTask {s : System} (h : s.Orderly) {i : Nat} {t : Task} {rest : List Task}
    (ht : (s.caller i).tasks = t :: rest) : (s.afterTask i t rest).Orderly := by
  by_cases hlock : s.pipeline.lifecycle = some i
  · exact h.afterTask_holder hlock ht
  · rcases h.others i hlock with htasks | htasks | hall
    · cases ht.symm.trans htasks
      exact h.afterTask_lock (e := .checking) rfl id (.inl rfl) hlock
    · cases ht.symm.trans htasks
      exact h.afterTask_lock (e := .taking) rfl id (.inr (.inl rfl)) hlock
    · exact h.afterTask_ordinary hlock (ht ▸ hall)

/-- After any run the lifecycle of the pipeline is in order. -/
theorem orderly_run (world : World) (ms : List Move) : (run world ms).Orderly := by
  induction ms using List.reverseRecOn with
  | nil => exact orderly_new world
  | append_singleton ms m ih =>
    rw [run_concat]
    apply next_cases
    case nothing => exact ih
    case begin =>
      intro i call _ hi
      exact ih.setCaller (ih.lifecycle_ne_of_nil hi) (Call.waits_begin call)
    case task =>
      intro i t rest ht
      exact ih.afterTask ht
    case consumer =>
      intro j c hc
      have hsound := sound_run world ms c (List.mem_of_getElem? hc)
      exact ih.continues (continues_afterConsumer hc hsound) (Consumer.step_lifecycle _ _)
    case timer =>
      intro j c hc
      exact ih.continues (continues_afterTimer hc) rfl
    case outside =>
      intro w
      exact ih.continues (Pipeline.continues_of_eq rfl rfl rfl) rfl

namespace Orderly

/-- At most one consumer has not ended, and it is the one started last. -/
theorem ended_of_ne_last {s : System} (h : s.Orderly) {j : Nat} {c : Consumer}
    (hc : s.pipeline.consumers[j]? = some c) (hj : j + 1 ≠ s.pipeline.consumers.length) :
    c.stage = .ended := by
  have of_alone : ∀ k, s.pipeline.Alone k → c.stage = .ended := fun k hk =>
    hk.2 j c hc fun hjk => hj (hjk ▸ hk.1)
  have of_settled : s.pipeline.Settled → c.stage = .ended := by
    intro hs
    unfold Pipeline.Settled at hs
    split at hs
    · exact hs c (List.mem_of_getElem? hc)
    · exact of_alone _ hs.1
  cases hlock : s.pipeline.lifecycle with
  | none => exact of_settled (h.settled hlock)
  | some i =>
    obtain ⟨e, -, hfits⟩ := h.holder i hlock
    cases e with
    | checking | taking | leaving => exact of_settled hfits
    | rearmingStop d | rearmingDump d | rearmingDone d | spawning =>
      exact hfits.2.1 c (List.mem_of_getElem? hc)
    | closingStop k d | closingDump k d | awaitingDone k d => exact of_alone k hfits.2.1
    | joining k => exact of_alone k hfits.2

theorem index_eq {s : System} (h : s.Orderly) {j k : Nat} {c d : Consumer}
    (hc : s.pipeline.consumers[j]? = some c) (hd : s.pipeline.consumers[k]? = some d)
    (hcs : c.stage ≠ .ended) (hds : d.stage ≠ .ended) : j = k := by
  have hj : j + 1 = s.pipeline.consumers.length :=
    Classical.byContradiction fun hj => hcs (h.ended_of_ne_last hc hj)
  have hk : k + 1 = s.pipeline.consumers.length :=
    Classical.byContradiction fun hk => hds (h.ended_of_ne_last hd hk)
  omega

/-- A caller whose next task is part of starting or stopping holds the lifecycle
lock. -/
theorem errand_of_task {s : System} (h : s.Orderly) {i : Nat} {t : Task} {rest : List Task}
    (ht : (s.caller i).tasks = t :: rest) (hord : ¬t.Ordinary) (hne : t ≠ .lockLifecycle) :
    ∃ e : Errand, e.tasks = t :: rest ∧ e.Fits s.pipeline ∧ s.pipeline.lifecycle = some i := by
  by_cases hlock : s.pipeline.lifecycle = some i
  · obtain ⟨e, he, hfits⟩ := h.holder i hlock
    exact ⟨e, he.symm.trans ht, hfits, hlock⟩
  · rcases h.others i hlock with htasks | htasks | hall
    · cases ht.symm.trans htasks
      exact (hne rfl).elim
    · cases ht.symm.trans htasks
      exact (hne rfl).elim
    · exact (hord (hall t (ht ▸ List.mem_cons_self))).elim

end Orderly

end System

end LogPipeline
