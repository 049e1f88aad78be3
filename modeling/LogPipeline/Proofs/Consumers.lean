import LogPipeline.Proofs.Event.Calls
import LogPipeline.Proofs.Run

/-!
# Consumers at every point of their loop

What a consumer has taken from the queue and not yet handed on (`draining`) is
empty wherever its loop is not between taking the queue and finishing with it;
so it exchanges the queue for an empty one, and what it takes it keeps until it
has printed or dumped all of it. Its calls on the events only look or wait, but
for the last one, which says that it has ended.

`sound_run` says so of all consumers after any run.
-/

namespace LogPipeline

open Sync

/-- A call that exchanges the queue for an empty one. -/
def BufferCall.Fetches : BufferCall → Prop
  | .enter (.exchange entries _) a => entries = [] ∧ a.budget = 0
  | .publish (.drained _ _) | .leave (.drained _ _) => True
  | _ => False

theorem BufferCall.fetches_exchange (room : Nat) : (BufferCall.exchange [] room).Fetches :=
  ⟨rfl, rfl⟩

/-- A call that exchanges the queue ends with what was queued, or goes on. -/
theorem BufferCall.Fetches.step {c : BufferCall} (h : c.Fetches) (b : RecordBuffer) :
    (∃ entries room, (c.step b).2 = .finished (.drained entries room)) ∨
      (c.step b).2.Fetches := by
  cases c with
  | enter op a =>
    cases op with
    | exchange entries room =>
      obtain ⟨rfl, ha⟩ := h
      rcases SpinLock.attempt_of_budget_zero ha b.lock with hacq | hagain
      · exact .inr (by simp [BufferCall.step, hacq, RecordBuffer.perform, Fetches])
      · exact .inr (by simp [BufferCall.step, hagain, Fetches, ha])
    | _ => exact h.elim
  | publish reply =>
    cases reply with
    | drained entries room => exact .inr trivial
    | _ => exact h.elim
  | leave reply =>
    cases reply with
    | drained entries room => exact .inl ⟨entries, room, rfl⟩
    | _ => exact h.elim
  | _ => exact h.elim

namespace Consumer

/-- What holds of a consumer at each point of its loop. -/
def Sound (c : Consumer) : Prop :=
  match c.stage with
  | .top | .seekSwitch | .noteSwitch _ | .decide | .ended => c.draining = []
  | .awaitDump call | .idle call => c.draining = [] ∧ call.Serves (.wait .timed)
  | .checkStop call => c.draining = [] ∧ call.Serves .isClosed
  | .takeQueue call => c.draining = [] ∧ call.Fetches
  | .choose | .dump | .pickSink | .flush _ => True
  | .print _ rest => rest <:+ c.draining
  | .finish call => c.draining = [] ∧ call.Serves .close

theorem sound_new : Consumer.new.Sound := rfl

theorem sound_nextRound {c : Consumer} (h : c.draining = []) :
    ({ c with stage := c.nextRound } : Consumer).Sound := by
  unfold nextRound
  split
  · exact ⟨h, EventCall.serves_start _⟩
  · split
    · exact ⟨h, EventCall.serves_start _⟩
    · exact h

/-- Every step of a consumer keeps it sound. -/
theorem Sound.step {c : Consumer} (h : c.Sound) (p : Pipeline) : (c.step p).2.Sound := by
  unfold Sound at h
  cases hs : c.stage with
  | top =>
    simp only [hs] at h
    simp only [Consumer.step, hs]
    cases p.dumping
    · exact ⟨h, EventCall.serves_start _⟩
    · exact h
  | seekSwitch => simpa [Consumer.step, hs, Sound] using h
  | noteSwitch found =>
    simp only [hs] at h
    simp only [Consumer.step, hs]
    exact ⟨h, EventCall.serves_start _⟩
  | awaitDump call =>
    simp only [hs] at h
    have hstep := h.2.step p.dumpEvent
    simp only [Consumer.step, hs]
    split
    · exact ⟨h.1, EventCall.serves_start _⟩
    · exact ⟨h.1, hstep⟩
  | checkStop call =>
    simp only [hs] at h
    have hstep := h.2.step p.stopEvent
    simp only [Consumer.step, hs]
    split
    · exact ⟨h.1, by rw [h.1]; exact BufferCall.fetches_exchange _⟩
    · exact ⟨h.1, hstep⟩
  | takeQueue call =>
    simp only [hs] at h
    have hstep := h.2.step p.buffer
    simp only [Consumer.step, hs]
    split
    · trivial
    · next hne =>
      rcases hstep with ⟨entries, room, he⟩ | hf
      · exact (hne _ _ he).elim
      · exact ⟨h.1, hf⟩
  | choose =>
    simp only [Consumer.step, hs]
    split
    · next hnil => exact hnil
    · split <;> trivial
  | dump => simp [Consumer.step, hs, Sound]
  | pickSink => simp [Consumer.step, hs, Sound]
  | print sink rest =>
    simp only [hs] at h
    cases rest with
    | nil => simp [Consumer.step, hs, Sound]
    | cons e rest =>
      simp only [Consumer.step, hs]
      split
      · exact ⟨rfl, EventCall.serves_start _⟩
      · exact (List.suffix_cons e rest).trans h
  | flush sink => simp [Consumer.step, hs, Sound]
  | decide =>
    simp only [hs] at h
    simpa [Consumer.step, hs] using sound_nextRound h
  | idle call =>
    simp only [hs] at h
    have hstep := h.2.step p.stopEvent
    simp only [Consumer.step, hs]
    split
    · exact h.1
    · exact ⟨h.1, hstep⟩
  | finish call =>
    simp only [hs] at h
    have hstep := h.2.step p.doneEvent
    simp only [Consumer.step, hs]
    split
    · exact h.1
    · exact ⟨h.1, hstep⟩
  | ended => simpa [Consumer.step, hs, Sound] using h

theorem Sound.expire {c : Consumer} (h : c.Sound) (p : Pipeline) : (c.expire p).Sound := by
  unfold Consumer.expire
  split
  · next call hs =>
    simp only [Sound, hs] at h
    exact ⟨h.1, h.2.expire _⟩
  · next call hs =>
    simp only [Sound, hs] at h
    exact ⟨h.1, h.2.expire _⟩
  · exact h

/-- A sound consumer leaves the live slot of the stop event: it only looks at it
or waits on it. -/
theorem Sound.stop_live_step {c : Consumer} (h : c.Sound) (p : Pipeline) :
    (c.step p).1.stopEvent.live = p.stopEvent.live := by
  unfold Sound at h
  cases hs : c.stage with
  | checkStop call =>
    simp only [hs] at h
    simpa [Consumer.step, hs] using h.2.live_step p.stopEvent (.inl rfl)
  | idle call =>
    simp only [hs] at h
    simpa [Consumer.step, hs] using h.2.live_step p.stopEvent (.inr (.inr ⟨_, rfl⟩))
  | print sink rest =>
    cases rest with
    | nil => simp [Consumer.step, hs]
    | cons e rest => simp only [Consumer.step, hs]; split <;> rfl
  | flush sink => simp only [Consumer.step, hs]; split <;> rfl
  | _ => simp [Consumer.step, hs, dumpAll, Pipeline.addDropped]

theorem expire_of_ended {c : Consumer} (h : c.stage = .ended) (p : Pipeline) :
    c.expire p = c := by
  simp [Consumer.expire, h]

end Consumer

/-! ## Which consumers there are -/

namespace Task

/-- A task of a caller leaves all consumers, or starts a new one. -/
theorem step_consumers (i : Nat) (p : Pipeline) (t : Task) :
    (t.step i p).pipeline.consumers = p.consumers ∨
      t = .spawn ∧ (t.step i p).pipeline.consumers = p.consumers ++ [.new] := by
  apply pipeline_cases (P := fun p' => p'.consumers = p.consumers ∨
    t = spawn ∧ p'.consumers = p.consumers ++ [Consumer.new])
  case spawn =>
    intro ht
    exact .inr ⟨ht, rfl⟩
  case onEvent =>
    intro name c _
    cases name <;> exact .inl rfl
  case store =>
    intro setting _
    cases setting <;> exact .inl rfl
  all_goals
    intros
    exact .inl rfl

end Task

namespace System

/-- A consumer whose step it is not stays as it was, but for the end of its wait. -/
theorem consumer_next_of_ne {s : System} {j : Nat} {c : Consumer}
    (hc : s.pipeline.consumers[j]? = some c) {m : Move} (hm : m ≠ .act (.consumer j)) :
    ∃ d, (s.next m).pipeline.consumers[j]? = some d ∧ (d = c ∨ d = c.expire s.pipeline) := by
  obtain ⟨hlt, -⟩ := List.getElem?_eq_some_iff.1 hc
  match m with
  | .begin i call =>
    refine ⟨c, ?_, .inl rfl⟩
    simp only [next, System.begin]
    split <;> exact hc
  | .act (.caller i) =>
    refine ⟨c, ?_, .inl rfl⟩
    cases ht : (s.caller i).tasks with
    | nil => rw [next, step_caller_of_nil ht, hc]
    | cons t rest =>
      rw [next, step_caller_of_cons ht, afterTask, setCaller_pipeline]
      rcases t.step_consumers i s.pipeline with he | ⟨-, he⟩ <;> rw [he]
      · exact hc
      · rw [List.getElem?_append_left hlt, hc]
  | .act (.consumer k) =>
    have hkj : k ≠ j := fun hkj => hm (by rw [hkj])
    refine ⟨c, ?_, .inl rfl⟩
    cases hk : s.pipeline.consumers[k]? with
    | none => simpa [next, step, Pipeline.stepConsumer, hk] using hc
    | some d => simpa [next, step_consumer_of_some hk, afterConsumer, hkj] using hc
  | .act (.timer k) =>
    cases hk : s.pipeline.consumers[k]? with
    | none => exact ⟨c, by simpa [next, step, Pipeline.expireConsumer, hk] using hc, .inl rfl⟩
    | some d =>
      rw [next, step_timer_of_some hk]
      by_cases hkj : k = j
      · subst hkj
        cases hc.symm.trans hk
        exact ⟨_, by simp [afterTimer, hlt], .inr rfl⟩
      · exact ⟨c, by simpa [afterTimer, hkj] using hc, .inl rfl⟩
  | .outside w => exact ⟨c, hc, .inl rfl⟩

/-- A consumer is still there after a move, and has taken a step, has come to the
end of its wait, or has done nothing. -/
theorem consumer_next {s : System} {k : Nat} {c : Consumer}
    (hc : s.pipeline.consumers[k]? = some c) (m : Move) :
    ∃ d, (s.next m).pipeline.consumers[k]? = some d ∧
      (d = c ∨ d = (c.step s.pipeline).2 ∨ d = c.expire s.pipeline) := by
  by_cases hm : m = .act (.consumer k)
  · obtain ⟨hlt, -⟩ := List.getElem?_eq_some_iff.1 hc
    subst hm
    rw [next, step_consumer_of_some hc]
    exact ⟨_, by simp [afterConsumer, hlt], .inr (.inl rfl)⟩
  · obtain ⟨d, hd, hcases⟩ := consumer_next_of_ne hc hm
    exact ⟨d, hd, hcases.imp_right .inr⟩

/-- A consumer that has been started stays. -/
theorem consumer_run {world : World} {front : List Move} {k : Nat}
    (hk : k < (run world front).pipeline.consumers.length) (after : List Move) :
    ∃ c, (run world (front ++ after)).pipeline.consumers[k]? = some c := by
  induction after using List.reverseRecOn with
  | nil => exact ⟨_, by rw [List.append_nil, List.getElem?_eq_getElem hk]⟩
  | append_singleton after m ih =>
    obtain ⟨c, hc⟩ := ih
    obtain ⟨d, hd, -⟩ := consumer_next hc m
    exact ⟨d, by rw [← List.append_assoc, run_concat, hd]⟩

/-- A consumer after a move is a new one, or was there before. -/
theorem next_consumer {s : System} {m : Move} {k : Nat} {d : Consumer}
    (hd : (s.next m).pipeline.consumers[k]? = some d) :
    d = .new ∨ ∃ c, s.pipeline.consumers[k]? = some c ∧
      (d = c ∨ d = (c.step s.pipeline).2 ∨ d = c.expire s.pipeline) := by
  cases hc : s.pipeline.consumers[k]? with
  | some c =>
    obtain ⟨d', hd', hcases⟩ := consumer_next hc m
    cases hd'.symm.trans hd
    exact .inr ⟨c, rfl, hcases⟩
  | none =>
    left
    revert hd
    apply next_cases (P := fun s' => s'.pipeline.consumers[k]? = some d → d = .new)
    case task =>
      intro i t rest _ hd
      rcases Task.step_consumers i s.pipeline t with he | ⟨-, he⟩ <;>
        simp only [afterTask, setCaller_pipeline, he] at hd
      · cases hc.symm.trans hd
      · rcases getElem?_concat_cases hd with hd | hd
        · cases hc.symm.trans hd
        · exact hd
    case consumer =>
      intro j b _ hd
      simp only [afterConsumer, Consumer.step_consumers] at hd
      rw [List.getElem?_eq_none (by simpa using hc)] at hd
      cases hd
    case timer =>
      intro j b _ hd
      rw [afterTimer, List.getElem?_eq_none (by simpa using hc)] at hd
      cases hd
    case nothing =>
      intro hd
      cases hc.symm.trans hd
    case begin =>
      intro i call _ _ hd
      cases hc.symm.trans hd
    case outside =>
      intro w hd
      cases hc.symm.trans hd

/-- What holds of new consumers and is kept by their steps, and by the end of
their waits, holds of all consumers after any run. -/
theorem forall_consumers_run {P : Consumer → Prop} (new : P .new)
    (step : ∀ p c, P c → P (c.step p).2) (expire : ∀ p c, P c → P (c.expire p))
    (world : World) (ms : List Move) : ∀ c ∈ (run world ms).pipeline.consumers, P c := by
  induction ms using List.reverseRecOn with
  | nil => simp [run_nil, System.new, Pipeline.new]
  | append_singleton ms m ih =>
    rw [run_concat]
    intro d hd
    obtain ⟨k, hk⟩ := List.getElem?_of_mem hd
    rcases next_consumer hk with rfl | ⟨c, hc, hcases⟩
    · exact new
    · have h := ih c (List.mem_of_getElem? hc)
      rcases hcases with rfl | rfl | rfl
      · exact h
      · exact step _ _ h
      · exact expire _ _ h

/-- All consumers are sound after any run. -/
theorem sound_run (world : World) (ms : List Move) :
    ∀ c ∈ (run world ms).pipeline.consumers, c.Sound :=
  forall_consumers_run Consumer.sound_new (fun p _ h => h.step p) (fun p _ h => h.expire p)
    world ms

end System

end LogPipeline
