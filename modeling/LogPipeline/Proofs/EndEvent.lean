import LogPipeline.Proofs.Actors

/-!
# The event of the end

A consumer closes the event of its end, however it ends. From then on the event is closed
until a start opens it again, which is about to start the next consumer (`endClosed_run`).
So a stop that waits on a slot of the event waits for a consumer that has not ended, and
that closes the event, or has closed it and is about to fire the slot (`awaits_run`).
-/

namespace LogPipeline

open Sync

/-- A call that closes an event still tries for the lock, or has closed the event. -/
theorem Sync.EventCall.Serves.close_step {c : EventCall} (h : c.Serves .close)
    (e : BroadcastEvent) :
    (c.step e).1.live = none ∨ (c.step e).1.live = e.live ∧
      ((∃ op a, (c.step e).2 = .enter op a) ∨ ∀ op a, c ≠ .enter op a) := by
  cases c with
  | enter op a =>
    obtain ⟨rfl, ha⟩ := h
    rcases SpinLock.attempt_of_budget_zero ha e.lock with hacq | hagain
    · exact .inl (by simp [EventCall.step, hacq, BroadcastEvent.exchange])
    · exact .inr ⟨by simp [EventCall.step, hagain], .inl ⟨.close, a, by
        simp [EventCall.step, hagain]⟩⟩
  | _ =>
    refine .inr ⟨?_, .inr fun op a hc => by cases hc⟩
    rcases EventCall.step_live e _ with ⟨hlive, -⟩ | ⟨op, a, hc, -⟩
    · exact hlive
    · cases hc

/-! ## The end of a consumer -/

/-- A consumer at this stage has closed the event of its end. -/
def ConsumerStage.Closed : ConsumerStage → Prop
  | .finish call => ∀ op a, call ≠ .enter op a
  | .ended => True
  | _ => False

namespace Consumer

theorem closed_of_step {p : Pipeline} {c : Consumer} (h : (c.step p).2.stage.Closed) :
    (∃ call, c.stage = .finish call) ∨ c.stage = .ended := by
  cases hs : c.stage with
  | finish call => exact .inl ⟨call, rfl⟩
  | ended => exact .inr rfl
  | print sink rest =>
    cases rest with
    | nil => simp [step, hs, ConsumerStage.Closed] at h
    | cons e rest =>
      simp only [step, hs] at h
      split at h
      · exact (h _ _ rfl).elim
      · exact h.elim
  | decide =>
    simp only [step, hs, nextRound] at h
    split at h
    · exact (h _ _ rfl).elim
    · split at h <;> exact h.elim
  | choose =>
    simp only [step, hs] at h
    split at h
    · exact h.elim
    · split at h <;> exact h.elim
  | top | awaitDump call | checkStop call | takeQueue call | idle call =>
    simp only [step, hs] at h
    split at h <;> exact h.elim
  | _ => simp [step, hs, ConsumerStage.Closed] at h

theorem closed_of_expire {p : Pipeline} {c : Consumer} (h : (c.expire p).stage.Closed) :
    c.stage.Closed := by
  unfold Consumer.expire at h
  split at h
  · exact h.elim
  · exact h.elim
  · exact h

/-- A step of a consumer leaves the event of the end as open as it was, and brings the
consumer no nearer to its end than that, or it closes the event. -/
theorem Sound.closed_step {c : Consumer} (h : c.Sound) (p : Pipeline) :
    (c.step p).1.doneEvent.live = none ∨ (c.step p).1.doneEvent.live = p.doneEvent.live ∧
      ((c.step p).2.stage.Closed → c.stage.Closed) := by
  by_cases hfinish : ∃ call, c.stage = .finish call
  · obtain ⟨call, hs⟩ := hfinish
    simp only [Sound, hs] at h
    rcases h.2.close_step p.doneEvent with hnone | ⟨hlive, hcall⟩
    · exact .inl (by simpa [Consumer.step, hs] using hnone)
    · refine .inr ⟨by simpa [Consumer.step, hs] using hlive, fun hclosed => ?_⟩
      rw [hs]
      refine hcall.resolve_left ?_
      rintro ⟨op, a, hcall⟩
      simp only [Consumer.step, hs, hcall] at hclosed
      exact hclosed op a rfl
  · have hevent : (c.step p).1.event .done = p.event .done := by
      refine c.step_event (fun call hcall => hfinish ⟨call, ?_⟩) p
      unfold ConsumerStage.eventCall? at hcall
      split at hcall <;> cases hcall
      assumption
    refine .inr ⟨congrArg (·.live) hevent, fun hclosed => ?_⟩
    rw [(closed_of_step hclosed).resolve_left hfinish]
    trivial

end Consumer

namespace System

/-- Who is at a call on the event of the end: a start that opens it again, or a stop that
waits for the consumer it has taken. -/
theorem Orderly.onDone {s : System} (h : s.Orderly) {i : Nat} {c : EventCall} {rest : List Task}
    (ht : (s.caller i).tasks = .onEvent .done c :: rest) :
    c.Serves .reopen ∧ rest = [.spawn, .unlockLifecycle] ∨
      ∃ k, c.Serves (.wait .untimed) ∧ rest = [.join k, .unlockLifecycle] ∧ s.pipeline.Alone k := by
  obtain ⟨e, he, hfits, -⟩ := h.errand_of_task ht (fun hord => by cases hord.1) (by simp)
  cases e with
  | rearmingDone d =>
    cases he
    exact .inl ⟨hfits.2.2.2, rfl⟩
  | awaitingDone k d =>
    cases he
    exact .inr ⟨k, hfits.2.2, rfl, hfits.2.1⟩
  | _ => simp [Errand.tasks] at he

/-- A start has opened the event of the end again, and is about to start a consumer. -/
def Reopened (s : System) : Prop :=
  ∃ i, (s.caller i).tasks = [.spawn, .unlockLifecycle] ∨
    ∃ call, (s.caller i).tasks = [.onEvent .done call, .spawn, .unlockLifecycle] ∧
      ∀ op a, call ≠ .enter op a

/-- Once the consumer started last has closed the event of its end, the event is closed
until a start opens it again. -/
def EndClosed (s : System) : Prop :=
  ∀ k c, s.pipeline.consumers[k]? = some c → k + 1 = s.pipeline.consumers.length →
    c.stage.Closed → s.pipeline.doneEvent.live = none ∨ s.Reopened

theorem Reopened.setCaller_of_nil {s : System} (h : s.Reopened) {i : Nat}
    (hi : (s.caller i).tasks = []) (c : Caller) : (s.setCaller i c).Reopened := by
  obtain ⟨j, hj⟩ := h
  have hji : j ≠ i := by
    rintro rfl
    simp [hi] at hj
  exact ⟨j, by rwa [setCaller_caller_of_ne s c hji]⟩

/-- A start that has opened the event of the end goes on to start a consumer. -/
theorem Reopened.afterTask {s : System} (h : s.Reopened) {j : Nat} {t : Task} {rest : List Task}
    (ht : (s.caller j).tasks = t :: rest) (hspawn : t ≠ .spawn) :
    (s.afterTask j t rest).Reopened := by
  obtain ⟨i, hi⟩ := h
  by_cases hij : i = j
  · subst hij
    rcases hi with hi | ⟨call, hi, hcall⟩
    · cases ht.symm.trans hi
      exact (hspawn rfl).elim
    · cases ht.symm.trans hi
      have hcall' : ∀ op a, (call.step (s.pipeline.event .done)).2 ≠ .enter op a :=
        EventCall.enter_ne_of_step hcall
      rcases (Task.step_onEvent i s.pipeline .done call).2 with ⟨hnext, -⟩ | hnext
      · exact ⟨i, .inl (by simp [System.afterTask, hnext])⟩
      · exact ⟨i, .inr ⟨_, by simp [System.afterTask, hnext], hcall'⟩⟩
  · exact ⟨i, by rwa [System.afterTask, setCaller_caller_of_ne _ _ hij]⟩

/-- While the event of the end is closed, a task leaves it closed, or has just opened it
to start a consumer. -/
theorem Orderly.done_afterTask {s : System} (h : s.Orderly)
    (hnone : s.pipeline.doneEvent.live = none) {j : Nat} {t : Task} {rest : List Task}
    (ht : (s.caller j).tasks = t :: rest) :
    (s.afterTask j t rest).pipeline.doneEvent.live = none ∨ (s.afterTask j t rest).Reopened := by
  by_cases hcall : ∃ c, t = .onEvent .done c
  · obtain ⟨c, rfl⟩ := hcall
    obtain ⟨hp, hnext⟩ := Task.step_onEvent j s.pipeline .done c
    have hlive : (s.afterTask j (.onEvent .done c) rest).pipeline.doneEvent.live =
        (c.step s.pipeline.doneEvent).1.live := by
      rw [System.afterTask, setCaller_pipeline, hp]
      rfl
    rw [hlive]
    rcases h.onDone ht with ⟨-, rfl⟩ | ⟨k, hserves, -⟩
    · rcases EventCall.step_live s.pipeline.doneEvent c with ⟨hsame, -⟩ | ⟨op, a, -, -, hleave⟩
      · exact .inl (hsame.trans hnone)
      · refine .inr ⟨j, .inr ⟨(c.step s.pipeline.doneEvent).2, ?_, by simp [hleave]⟩⟩
        rcases hnext with ⟨-, reply, hreply⟩ | hnext
        · cases hleave.symm.trans hreply
        · simp [System.afterTask, hnext, Pipeline.event]
    · exact .inl ((hserves.live_step _ (.inr (.inr ⟨_, rfl⟩))).trans hnone)
  · left
    have he : (t.step j s.pipeline).pipeline.event .done = s.pipeline.event .done :=
      t.step_event j s.pipeline fun c he => hcall ⟨c, he⟩
    exact (congrArg (·.live) he).trans hnone

theorem endClosed_next {s : System} (h : s.EndClosed) (ho : s.Orderly)
    (hsound : ∀ c ∈ s.pipeline.consumers, c.Sound) (m : Move) : (s.next m).EndClosed := by
  apply next_cases
  case nothing => exact h
  case begin =>
    intro i call _ hi k c hc hk hclosed
    exact (h k c hc hk hclosed).imp_right fun hr => hr.setCaller_of_nil hi _
  case task =>
    intro j t rest ht k c hc hk hclosed
    simp only [afterTask, setCaller_pipeline] at hc hk
    rcases t.step_consumers j s.pipeline with he | ⟨rfl, he⟩
    · rw [he] at hc hk
      rcases h k c hc hk hclosed with hnone | hreopened
      · exact ho.done_afterTask hnone ht
      · refine .inr (hreopened.afterTask ht ?_)
        rintro rfl
        simp [Task.step] at he
    · -- the consumer started last is new
      rw [he] at hc hk
      obtain rfl : k = s.pipeline.consumers.length := by simpa using hk
      rw [List.getElem?_concat_length] at hc
      cases hc
      exact hclosed.elim
  case consumer =>
    intro j d hd k c hc hk hclosed
    have hstep := (hsound d (List.mem_of_getElem? hd)).closed_step s.pipeline
    simp only [afterConsumer, Consumer.step_consumers, List.length_set] at hc hk
    have hbefore : (s.afterConsumer j d).pipeline.doneEvent.live = none ∨
        (s.afterConsumer j d).pipeline.doneEvent.live = s.pipeline.doneEvent.live ∧
          ∃ c', s.pipeline.consumers[k]? = some c' ∧ c'.stage.Closed := by
      rcases hstep with hnone | ⟨hlive, himp⟩
      · exact .inl hnone
      · rcases getElem?_set_cases hd hc with ⟨rfl, rfl⟩ | ⟨-, hc⟩
        · exact .inr ⟨hlive, d, hd, himp hclosed⟩
        · exact .inr ⟨hlive, c, hc, hclosed⟩
    rcases hbefore with hnone | ⟨hlive, c', hc', hclosed'⟩
    · exact .inl hnone
    · exact (h k c' hc' hk hclosed').imp_left hlive.trans
  case timer =>
    intro j d hd k c hc hk hclosed
    simp only [afterTimer, List.length_set] at hc hk
    rcases getElem?_set_cases hd hc with ⟨rfl, rfl⟩ | ⟨-, hc⟩
    · exact h k d hd hk (Consumer.closed_of_expire hclosed)
    · exact h k c hc hk hclosed
  case outside =>
    intro w
    exact h

theorem endClosed_run (world : World) (ms : List Move) : (run world ms).EndClosed := by
  induction ms using List.reverseRecOn with
  | nil =>
    intro k c hc
    cases hc
  | append_singleton ms m ih =>
    rw [run_concat]
    exact endClosed_next ih (orderly_run world ms) (sound_run world ms) m

/-! ## The wait for the end -/

/-- While a stop waits for a consumer, no start has opened the event of the end. -/
theorem Orderly.not_reopened {s : System} (h : s.Orderly) {i k : Nat} {c : EventCall}
    (ht : (s.caller i).tasks = [.onEvent .done c, .join k, .unlockLifecycle]) : ¬s.Reopened := by
  rintro ⟨j, hj⟩
  have hdone : ∀ call, ¬(Task.onEvent .done call).Ordinary := fun call hord => by cases hord.1
  obtain ⟨-, -, -, hi⟩ := h.errand_of_task ht (hdone c) (by simp)
  have hlock : s.pipeline.lifecycle = some j := by
    rcases hj with hj | ⟨call, hj, -⟩
    · obtain ⟨-, -, -, hlock⟩ := h.errand_of_task hj id (by simp)
      exact hlock
    · obtain ⟨-, -, -, hlock⟩ := h.errand_of_task hj (hdone call) (by simp)
      exact hlock
  cases hi.symm.trans hlock
  simp [ht] at hj

/-- Only a consumer closes the event of the end. -/
theorem Orderly.finish_of_fires {s : System} (h : s.Orderly) {call : EventCall}
    (hcall : s.Calls .done call) {slot : SlotId} (hfires : call.Fires slot) :
    ∃ (j : Nat) (c : Consumer), s.pipeline.consumers[j]? = some c ∧ c.stage = .finish call := by
  obtain ⟨a, ha⟩ := hcall
  cases a with
  | caller i =>
    obtain ⟨rest, ht⟩ := eventCall?_caller.1 ha
    rcases h.onDone ht with ⟨hserves, -⟩ | ⟨k, hserves, -⟩ <;>
      rcases hserves.of_fires hfires with hop | hop <;> cases hop
  | consumer j =>
    obtain ⟨c, hc, hstage⟩ := eventCall?_consumer.1 ha
    refine ⟨j, c, hc, ?_⟩
    unfold ConsumerStage.eventCall? at hstage
    split at hstage <;> cases hstage
    assumption
  | timer j => cases ha

/-- A stop that waits for the end of a consumer waits for one that has not ended, and on a
slot that is live or that this consumer is about to fire. -/
theorem awaits_run {world : World} {ms : List Move} {i : Nat} {c : EventCall} {rest : List Task}
    {slot : SlotId} (ht : ((run world ms).caller i).tasks = .onEvent .done c :: rest)
    (hholds : c.Holds slot) (hnone : (run world ms).pipeline.doneEvent.fired? slot = none) :
    ∃ k d, rest = [.join k, .unlockLifecycle] ∧
      (run world ms).pipeline.consumers[k]? = some d ∧ d.stage ≠ .ended ∧
      ((run world ms).pipeline.doneEvent.live = some slot ∨
        ∃ call, d.stage = .finish call ∧ call.Fires slot) := by
  have ho := orderly_run world ms
  have hslots := slots_run world ms .done
  have hcalls : (run world ms).Calls .done c := ⟨.caller i, eventCall?_caller.2 ⟨rest, ht⟩⟩
  rcases ho.onDone ht with ⟨hserves, -⟩ | ⟨k, -, rfl, hlast, -⟩
  · -- a start that opens the event waits on no slot
    obtain ⟨mode, hop⟩ := hserves.of_holds hholds
    cases hop
  · obtain ⟨d, hd⟩ : ∃ d, (run world ms).pipeline.consumers[k]? = some d :=
      ⟨_, List.getElem?_eq_getElem (by omega)⟩
    refine ⟨k, d, rfl, hd, ?_⟩
    rcases hslots.unfired slot (hslots.known c slot hcalls (.inl hholds)) hnone with
      hlive | ⟨call, hcall, hfires⟩
    · refine ⟨fun hended => ?_, .inl hlive⟩
      have hclosed := endClosed_run world ms k d hd hlast (by rw [hended]; trivial)
      rcases hclosed with hclosed | hreopened
      · cases hlive.symm.trans hclosed
      · exact ho.not_reopened ht hreopened
    · obtain ⟨j, d', hd', hs⟩ := ho.finish_of_fires hcall hfires
      have hj : j + 1 = (run world ms).pipeline.consumers.length :=
        Classical.byContradiction fun hj => by
          cases hs.symm.trans (ho.ended_of_ne_last hd' hj)
      obtain rfl : j = k := by omega
      cases hd.symm.trans hd'
      exact ⟨by rw [hs]; simp, .inr ⟨call, hs, hfires⟩⟩

end System

end LogPipeline
