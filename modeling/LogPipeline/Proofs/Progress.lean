import LogPipeline.Proofs.Queue
import LogPipeline.Proofs.Restart

/-!
# Whoever starts or stops a pipeline can return

Whoever holds the lock of an event or of the queue can give it back (`leads_to_unlocked`), and a
consumer then goes on alone to where it can come (`leads_alone`). So a stop that waits for a
consumer can see it end (`leads_to_ended`), the caller that holds the lifecycle lock can finish
its errand (`leads_past_errand`), and one after the other all callers that start or stop the
pipeline can return (`leads_to_idle`).
-/

namespace LogPipeline

open Sync

/-! ## Calls on the queue -/

/-- The call on the queue that a caller is at. -/
def Caller.bufferCall? (c : Caller) : Option BufferCall :=
  match c.tasks with
  | .onBuffer call _ :: _ => some call
  | _ => none

theorem Caller.bufferCall?_eq {c : Caller} {call : BufferCall} :
    c.bufferCall? = some call ↔ ∃ stake rest, c.tasks = .onBuffer call stake :: rest := by
  unfold bufferCall?
  constructor
  · intro h
    split at h
    · next ht =>
      cases h
      exact ⟨_, _, ht⟩
    · cases h
  · rintro ⟨stake, rest, ht⟩
    rw [ht]

/-- The call on the queue that a consumer is at. -/
def ConsumerStage.bufferCall? : ConsumerStage → Option BufferCall
  | takeQueue call => some call
  | _ => none

theorem ConsumerStage.bufferCall?_eq {s : ConsumerStage} {call : BufferCall} :
    s.bufferCall? = some call ↔ s = .takeQueue call := by
  cases s <;> simp [bufferCall?]

/-- A call that leaves the lock of the queue held has it, or has found it held. -/
theorem BufferCall.holds_of_held (c : BufferCall) (b : RecordBuffer)
    (h : (c.step b).1.lock = .held) : (c.step b).2.Holds ∨ ¬c.Holds ∧ b.lock = .held := by
  cases c with
  | enter op a =>
    cases hlock : b.lock with
    | free =>
      rw [(step_enter_free op a hlock 0).1]
      exact .inl (RecordBuffer.perform_spec _ op).1
    | held => exact .inr ⟨id, rfl⟩
  | grow | publish => exact .inl trivial
  | leave reply => cases h
  | finished reply => exact .inr ⟨id, h⟩

/-- What a consumer does has nothing to do with the others. -/
theorem Consumer.step_with_consumers (p : Pipeline) (c : Consumer) (cs : List Consumer) :
    c.step { p with consumers := cs } =
      ({ (c.step p).1 with consumers := cs }, (c.step p).2) := by
  cases hs : c.stage with
  | print sink rest =>
    cases rest with
    | nil => simp only [step, hs]
    | cons e rest =>
      have hrecords : ({ p with consumers := cs } : Pipeline).records sink.channel =
          p.records sink.channel := rfl
      by_cases hpanics : sink.panics (p.records sink.channel).length = true <;>
        simp [step, hs, hrecords, hpanics]
  | flush sink => cases hkeeps : sink.keepsFlushes <;> simp [step, hs, hkeeps]
  | _ => simp only [step, hs] <;> rfl

namespace System

/-- The call on the queue that an actor is at. -/
def bufferCall? (s : System) : Actor → Option BufferCall
  | .caller i => (s.caller i).bufferCall?
  | .consumer j => (s.pipeline.consumers[j]?).bind fun c => c.stage.bufferCall?
  | .timer _ => none

theorem bufferCall?_consumer {s : System} {j : Nat} {call : BufferCall} :
    s.bufferCall? (.consumer j) = some call ↔
      ∃ c, s.pipeline.consumers[j]? = some c ∧ c.stage = .takeQueue call := by
  refine Option.bind_eq_some_iff.trans (exists_congr fun c => and_congr_right fun _ => ?_)
  exact ConsumerStage.bufferCall?_eq

/-- The step of an actor at a call on the queue is a step of the call. It changes nothing else
that others use, and the actor stays at the call until it has ended. -/
theorem next_onBuffer {s : System} {a : Actor} {call : BufferCall}
    (h : s.bufferCall? a = some call) :
    (s.next (.act a)).pipeline.buffer = (call.step s.pipeline.buffer).1 ∧
      (s.next (.act a)).pipeline.worker = s.pipeline.worker ∧
      ((∃ reply, (call.step s.pipeline.buffer).2 = .finished reply) ∨
        (s.next (.act a)).bufferCall? a = some (call.step s.pipeline.buffer).2) := by
  cases a with
  | caller i =>
    obtain ⟨stake, rest, ht⟩ := Caller.bufferCall?_eq.1 h
    rw [next, step_caller_of_cons ht]
    simp only [afterTask, setCaller_pipeline, Task.step]
    cases hreply : (call.step s.pipeline.buffer).2.reply? with
    | some reply =>
      refine ⟨rfl, rfl, .inl ⟨reply, ?_⟩⟩
      unfold BufferCall.reply? at hreply
      split at hreply <;> cases hreply
      assumption
    | none =>
      refine ⟨rfl, rfl, .inr (Caller.bufferCall?_eq.2 ⟨stake, rest, ?_⟩)⟩
      simp
  | consumer j =>
    obtain ⟨c, hc, hs⟩ := bufferCall?_consumer.1 h
    obtain ⟨hlt, -⟩ := List.getElem?_eq_some_iff.1 hc
    rw [next, step_consumer_of_some hc]
    refine ⟨by simp [afterConsumer, Consumer.step, hs], by simp [afterConsumer], ?_⟩
    cases hcall : (call.step s.pipeline.buffer).2 with
    | finished reply => exact .inl ⟨reply, rfl⟩
    | _ =>
      refine .inr (bufferCall?_consumer.2 ⟨(c.step s.pipeline).2, ?_, ?_⟩)
      · simp [afterConsumer, hlt]
      · simp [Consumer.step, hs, hcall]
  | timer j => cases h

/-- A move is a step of a call on the queue, or it leaves the queue. -/
theorem buffer_next (s : System) (m : Move) : (s.next m).pipeline.buffer = s.pipeline.buffer ∨
    ∃ a call, m = .act a ∧ s.bufferCall? a = some call := by
  match m with
  | .begin i call =>
    left
    simp only [next, System.begin]
    split <;> rfl
  | .act (.caller i) =>
    cases ht : (s.caller i).tasks with
    | nil =>
      rw [next, step_caller_of_nil ht]
      exact .inl rfl
    | cons t rest =>
      rw [next, step_caller_of_cons ht, afterTask, setCaller_pipeline]
      apply Task.pipeline_cases (P := fun p' => p'.buffer = s.pipeline.buffer ∨ _)
      case onBuffer =>
        rintro call stake rfl
        exact .inr ⟨_, call, rfl, Caller.bufferCall?_eq.2 ⟨stake, rest, ht⟩⟩
      case onEvent =>
        intro name call _
        cases name <;> exact .inl rfl
      case store =>
        intro setting _
        cases setting <;> exact .inl rfl
      all_goals
        intros
        exact .inl rfl
  | .act (.consumer j) =>
    cases hc : s.pipeline.consumers[j]? with
    | none => exact .inl (by simp [next, step, Pipeline.stepConsumer, hc])
    | some c =>
      by_cases hcall : ∃ call, c.stage = .takeQueue call
      · obtain ⟨call, hs⟩ := hcall
        exact .inr ⟨_, call, rfl, bufferCall?_consumer.2 ⟨c, hc, hs⟩⟩
      · rw [next, step_consumer_of_some hc]
        exact .inl (c.step_buffer (fun call hs => hcall ⟨call, hs⟩) s.pipeline)
  | .act (.timer j) =>
    left
    simp only [next, step, Pipeline.expireConsumer]
    split <;> rfl
  | .outside w => exact .inl rfl

/-- An actor stays at its call on the queue until it takes a step. -/
theorem bufferCall_next {s : System} {a : Actor} {call : BufferCall}
    (h : s.bufferCall? a = some call) {m : Move} (hm : m ≠ .act a) :
    (s.next m).bufferCall? a = some call := by
  cases a with
  | caller i =>
    obtain ⟨stake, rest, ht⟩ := Caller.bufferCall?_eq.1 h
    refine Caller.bufferCall?_eq.2 ⟨stake, rest, ?_⟩
    rw [next_caller_of_ne (by simp [ht]) hm, ht]
  | consumer j =>
    obtain ⟨c, hc, hs⟩ := bufferCall?_consumer.1 h
    obtain ⟨d, hd, rfl | rfl⟩ := consumer_next_of_ne hc hm
    · exact bufferCall?_consumer.2 ⟨d, hd, hs⟩
    · exact bufferCall?_consumer.2 ⟨_, hd, by simp [Consumer.expire, hs]⟩
  | timer j => cases h

/-- While the lock of the queue is held somebody has it. -/
theorem holder_run (world : World) (ms : List Move)
    (h : (run world ms).pipeline.buffer.lock = .held) :
    ∃ a call, (run world ms).bufferCall? a = some call ∧ call.Holds := by
  induction ms using List.reverseRecOn with
  | nil => cases h
  | append_singleton ms m ih =>
    rw [run_concat] at h ⊢
    have hstays : ∀ a call, (run world ms).bufferCall? a = some call → call.Holds → m ≠ .act a →
        ∃ a call, ((run world ms).next m).bufferCall? a = some call ∧ call.Holds :=
      fun a call hcall hholds hm => ⟨a, call, bufferCall_next hcall hm, hholds⟩
    by_cases hact : ∃ a call, m = .act a ∧ (run world ms).bufferCall? a = some call
    · obtain ⟨a, call, rfl, hcall⟩ := hact
      obtain ⟨hbuffer, -, hafter⟩ := next_onBuffer hcall
      rw [hbuffer] at h
      rcases call.holds_of_held _ h with hholds | ⟨hnot, hheld⟩
      · rcases hafter with ⟨reply, hreply⟩ | hafter
        · rw [hreply] at hholds
          exact hholds.elim
        · exact ⟨a, _, hafter, hholds⟩
      · obtain ⟨b, call', hcall', hholds⟩ := ih hheld
        refine hstays b call' hcall' hholds ?_
        intro hb
        cases Move.act.inj hb
        cases hcall.symm.trans hcall'
        exact hnot hholds
    · rw [(buffer_next _ m).resolve_right hact] at h
      obtain ⟨b, call, hcall, hholds⟩ := ih h
      exact hstays b call hcall hholds fun hm => hact ⟨b, call, hm, hcall⟩

/-! ## Locks -/

section Leads

variable {world : World} {ms : List Move}

/-- Whoever holds the lock of the queue can give it back. -/
theorem leads_to_free_buffer (world : World) (ms : List Move) :
    Leads world ms fun s => s.pipeline.buffer.lock = .free ∧
      s.pipeline.worker = (run world ms).pipeline.worker := by
  have hleave : ∀ ms' a reply, (run world ms').bufferCall? a = some (.leave reply) →
      (run world ms').pipeline.worker = (run world ms).pipeline.worker →
      Leads world ms' fun s => s.pipeline.buffer.lock = .free ∧
        s.pipeline.worker = (run world ms).pipeline.worker := fun ms' a reply hcall hsame => by
    obtain ⟨hbuffer, hworker, -⟩ := next_onBuffer hcall
    exact leads_of_step a ⟨by rw [hbuffer]; rfl, hworker.trans hsame⟩
  cases hlock : (run world ms).pipeline.buffer.lock with
  | free => exact leads_of_now ⟨hlock, rfl⟩
  | held =>
    obtain ⟨a, call, hcall, hholds⟩ := holder_run world ms hlock
    obtain ⟨-, hworker, hafter⟩ := next_onBuffer hcall
    cases call with
    | grow needed | publish reply =>
      refine (leads_of_step (P := fun s => ∃ reply, s.bufferCall? a = some (.leave reply) ∧
        s.pipeline.worker = (run world ms).pipeline.worker) a ?_).trans fun ms' h => ?_
      · exact ⟨_, hafter.resolve_left (by simp [BufferCall.step]), hworker⟩
      · obtain ⟨reply', hcall', hsame⟩ := h
        exact hleave ms' a reply' hcall' hsame
    | leave reply => exact hleave ms a reply hcall rfl
    | enter | finished => exact hholds.elim

/-- The step of an actor at a call on an event leaves all other events, and the queue. -/
theorem next_onEvent_frame {s : System} {a : Actor} {name : EventName} {call : EventCall}
    (h : s.eventCall? a = some (name, call)) :
    (∀ name', name' ≠ name →
        (s.next (.act a)).pipeline.event name' = s.pipeline.event name') ∧
      (s.next (.act a)).pipeline.buffer = s.pipeline.buffer ∧
      (s.next (.act a)).pipeline.worker = s.pipeline.worker := by
  refine ⟨fun name' hne => ?_, ?_, ?_⟩
  · refine (s.event_next (.act a) name').resolve_right ?_
    rintro ⟨b, call', hb, hcall'⟩
    cases Move.act.inj hb
    cases h.symm.trans hcall'
    exact hne rfl
  · refine (s.buffer_next (.act a)).resolve_right ?_
    rintro ⟨b, call', hb, hcall'⟩
    cases Move.act.inj hb
    cases a with
    | caller i =>
      obtain ⟨rest, ht⟩ := eventCall?_caller.1 h
      obtain ⟨stake, rest', ht'⟩ := Caller.bufferCall?_eq.1 hcall'
      cases ht.symm.trans ht'
    | consumer j =>
      obtain ⟨c, hc, hstage⟩ := eventCall?_consumer.1 h
      obtain ⟨d, hd, hs⟩ := bufferCall?_consumer.1 hcall'
      cases hc.symm.trans hd
      simp [hs, ConsumerStage.eventCall?] at hstage
    | timer j => cases h
  · cases a with
    | caller i =>
      obtain ⟨rest, ht⟩ := eventCall?_caller.1 h
      rw [next, step_caller_of_cons ht, afterTask, setCaller_pipeline,
        (Task.step_onEvent i s.pipeline name call).1]
      cases name <;> rfl
    | consumer j =>
      obtain ⟨c, hc, -⟩ := eventCall?_consumer.1 h
      rw [next, step_consumer_of_some hc]
      simp [afterConsumer]
    | timer j => cases h

/-- Whoever holds the lock of an event can give it back, and leaves all else. -/
theorem leads_to_free_event (world : World) (ms : List Move) (name : EventName) :
    Leads world ms fun s => (s.pipeline.event name).lock = .free ∧
      (∀ name', name' ≠ name → s.pipeline.event name' = (run world ms).pipeline.event name') ∧
      s.pipeline.buffer = (run world ms).pipeline.buffer ∧
      s.pipeline.worker = (run world ms).pipeline.worker := by
  cases hlock : ((run world ms).pipeline.event name).lock with
  | free => exact leads_of_now ⟨hlock, fun _ _ => rfl, rfl, rfl⟩
  | held =>
    obtain ⟨op, slot, a, hcall⟩ := (slots_run world ms name).held hlock
    exact leads_of_step a ⟨by rw [(next_onEvent hcall).1]; rfl, next_onEvent_frame hcall⟩

/-- Whoever holds a lock can give it back. -/
theorem leads_to_unlocked (world : World) (ms : List Move) :
    Leads world ms fun s => s.pipeline.Unlocked ∧
      s.pipeline.worker = (run world ms).pipeline.worker := by
  obtain ⟨a₁, hbuffer, hworker₁⟩ := leads_to_free_buffer world ms
  obtain ⟨a₂, hdump, -, hbuffer₂, hworker₂⟩ := leads_to_free_event world (ms ++ a₁.map .act) .dump
  obtain ⟨a₃, hstop, hothers₃, hbuffer₃, hworker₃⟩ :=
    leads_to_free_event world (ms ++ a₁.map .act ++ a₂.map .act) .stop
  obtain ⟨a₄, hdone, hothers₄, hbuffer₄, hworker₄⟩ :=
    leads_to_free_event world (ms ++ a₁.map .act ++ a₂.map .act ++ a₃.map .act) .done
  refine ⟨a₁ ++ a₂ ++ a₃ ++ a₄, ?_⟩
  simp only [List.map_append, ← List.append_assoc]
  refine ⟨⟨fun name => ?_, ?_⟩, by rw [hworker₄, hworker₃, hworker₂, hworker₁]⟩
  · cases name with
    | dump => rw [hothers₄ .dump (by simp), hothers₃ .dump (by simp), hdump]
    | stop => rw [hothers₄ .stop (by simp), hstop]
    | done => exact hdone
  · rw [hbuffer₄, hbuffer₃, hbuffer₂, hbuffer]

/-! ## Consumers -/

/-- A consumer that others leave alone comes to where it can come alone. -/
theorem leads_alone {P : Pipeline → Consumer → Prop} {k : Nat} {p : Pipeline} {c : Consumer}
    (h : c.Comes P p) (hc : (run world ms).pipeline.consumers[k]? = some c)
    (hp : ∃ cs, (run world ms).pipeline = { p with consumers := cs })
    (hP : ∀ p c cs, P p c → P { p with consumers := cs } c) :
    Leads world ms fun s => ∃ c, s.pipeline.consumers[k]? = some c ∧ P s.pipeline c := by
  obtain ⟨cs, hp⟩ := hp
  obtain ⟨hlt, -⟩ := List.getElem?_eq_some_iff.1 hc
  induction h generalizing ms cs with
  | here h => exact leads_of_now ⟨_, hc, hp ▸ hP _ _ cs h⟩
  | @step p c _ ih =>
    have hnext : (run world (ms ++ [.act (.consumer k)])).pipeline =
        { (c.step p).1 with
          consumers := (run world ms).pipeline.consumers.set k (c.step p).2 } := by
      rw [run_concat, next, step_consumer_of_some hc, afterConsumer, hp, c.step_with_consumers]
    obtain ⟨actors, h⟩ := ih (by simp [hnext, hlt]) _ hnext (by simp [hnext, hlt])
    exact ⟨.consumer k :: actors, by simpa using h⟩
  | @expire p c _ ih =>
    have hnext : (run world (ms ++ [.act (.timer k)])).pipeline =
        { p with consumers := (run world ms).pipeline.consumers.set k (c.expire p) } := by
      rw [run_concat, next, step_timer_of_some hc, afterTimer, hp]
      rfl
    obtain ⟨actors, h⟩ := ih (by simp [hnext, hlt]) _ hnext (by simp [hnext, hlt])
    exact ⟨.timer k :: actors, by simpa using h⟩

end Leads

/-! ## The stop event while a stop waits -/

end System

namespace Errand

/-- A caller at an errand neither waits for the lifecycle lock nor is at tasks that need none. -/
theorem not_waits {e : Errand} {c : Caller} (h : c.tasks = e.tasks) : ¬c.Waits := by
  rintro (htasks | htasks | hord)
  · cases e <;> cases htasks.symm.trans h
  · cases e <;> cases htasks.symm.trans h
  · have hmem : Task.unlockLifecycle ∈ c.tasks := by
      rw [h]
      cases e <;> simp [tasks]
    exact hord _ hmem

/-- A caller that does not hold the lifecycle lock comes to an errand only at its beginning. -/
theorem begins_of_waits {c : Caller} (h : c.Waits) {i : Nat} {p : Pipeline} {t : Task}
    {rest : List Task} (ht : c.tasks = t :: rest) {e : Errand}
    (he : (t.step i p).next ++ rest = e.tasks) : e = .checking ∨ e = .taking := by
  have hlock : ∀ e₀ : Errand, t = .lockLifecycle → rest = e₀.tasks → Caller.Waits ⟨t :: rest, none⟩ →
      e = e₀ := by
    rintro e₀ rfl rfl hwaits
    cases hnone : p.lifecycle with
    | none => exact tasks_injective (he.symm.trans (by simp [Task.step, hnone]))
    | some k =>
      refine (not_waits (e := e) ?_ hwaits).elim
      simpa [Task.step, hnone] using he
  rcases h with htasks | htasks | hord
  · cases ht.symm.trans htasks
    exact .inl (hlock .checking rfl rfl (.inl rfl))
  · cases ht.symm.trans htasks
    exact .inr (hlock .taking rfl rfl (.inr (.inl rfl)))
  · refine (not_waits (c := ⟨e.tasks, none⟩) rfl (.inr (.inr fun t' ht' => ?_))).elim
    rw [ht] at hord
    rcases List.mem_append.1 (he ▸ ht') with ht' | ht'
    · exact (hord t List.mem_cons_self).step i p t' ht'
    · exact hord t' (List.mem_cons_of_mem t ht')

/-- Whether the stop event is closed if an errand has closed it. -/
def Shuts (p : Pipeline) : Errand → Prop
  | .closingStop _ c => (∀ op a, c ≠ .enter op a) → p.stopEvent.live = none
  | .closingDump _ _ | .awaitingDone _ _ | .joining _ => p.stopEvent.live = none
  | _ => True

theorem Shuts.mono {p p' : Pipeline} {e : Errand} (h : e.Shuts p)
    (hlive : p'.stopEvent.live = p.stopEvent.live) : e.Shuts p' := by
  cases e with
  | closingStop k c => exact fun hne => hlive.trans (h hne)
  | closingDump | awaitingDone | joining => exact hlive.trans h
  | _ => trivial

/-- What a stop has closed stays closed with its next step. -/
theorem Shuts.step {p : Pipeline} {e e' : Errand} (h : e.Shuts p) (hfits : e.Fits p) (i : Nat)
    {t : Task} {rest : List Task} (ht : e.tasks = t :: rest)
    (ht' : (t.step i p).next ++ rest = e'.tasks) : e'.Shuts (t.step i p).pipeline := by
  -- the tasks tell the next errand
  have hnext : ∀ e₁ : Errand, (t.step i p).next ++ rest = e₁.tasks →
      e₁.Shuts (t.step i p).pipeline → e'.Shuts (t.step i p).pipeline := fun e₁ htasks hshuts => by
    cases tasks_injective (htasks.symm.trans ht')
    exact hshuts
  cases e with
  | checking =>
    cases ht
    cases hworker : p.worker with
    | none => exact hnext (.rearmingStop (.start .reopen)) (by simp [Task.step, hworker]; rfl) trivial
    | some k => exact hnext .leaving (by simp [Task.step, hworker]; rfl) trivial
  | taking =>
    cases ht
    cases hworker : p.worker with
    | none => exact hnext .leaving (by simp [Task.step, hworker]; rfl) trivial
    | some k =>
      refine hnext (.closingStop k (.start .close)) (by simp [Task.step, hworker]; rfl) ?_
      exact fun hne => (hne _ _ rfl).elim
  | rearmingStop c =>
    cases ht
    rcases (Task.step_onEvent i p .stop c).2 with ⟨hn, -⟩ | hn
    · exact hnext (.rearmingDump (.start .reopen)) (by rw [hn]; rfl) trivial
    · exact hnext (.rearmingStop _) (by rw [hn]; rfl) trivial
  | rearmingDump c =>
    cases ht
    rcases (Task.step_onEvent i p .dump c).2 with ⟨hn, -⟩ | hn
    · exact hnext (.rearmingDone (.start .reopen)) (by rw [hn]; rfl) trivial
    · exact hnext (.rearmingDump _) (by rw [hn]; rfl) trivial
  | rearmingDone c =>
    cases ht
    rcases (Task.step_onEvent i p .done c).2 with ⟨hn, -⟩ | hn
    · exact hnext .spawning (by rw [hn]; rfl) trivial
    · exact hnext (.rearmingDone _) (by rw [hn]; rfl) trivial
  | spawning =>
    cases ht
    exact hnext .leaving rfl trivial
  | closingStop k c =>
    cases ht
    obtain ⟨hp, hn⟩ := Task.step_onEvent i p .stop c
    have hclose := hfits.2.2.close_step p.stopEvent
    -- once the call has the lock the event is closed
    have hclosed : (∀ op a, (c.step p.stopEvent).2 ≠ .enter op a) →
        (Task.step i p (.onEvent .stop c)).pipeline.stopEvent.live = none := fun hne => by
      rw [hp]
      rcases hclose with hnone | ⟨hsame, henter | hpast⟩
      · exact hnone
      · obtain ⟨op, a, henter⟩ := henter
        exact (hne op a henter).elim
      · exact hsame.trans (h hpast)
    rcases hn with ⟨hn, reply, hreply⟩ | hn
    · refine hnext (.closingDump k (.start .close)) (by rw [hn]; rfl) (hclosed fun op a he => ?_)
      cases hreply.symm.trans he
    · exact hnext (.closingStop k _) (by rw [hn]; rfl) hclosed
  | closingDump k c =>
    cases ht
    obtain ⟨hp, hn⟩ := Task.step_onEvent i p .dump c
    have hclosed : (Task.step i p (.onEvent .dump c)).pipeline.stopEvent.live = none := by
      rw [hp]
      exact h
    rcases hn with ⟨hn, -⟩ | hn
    · exact hnext (.awaitingDone k (.start (.wait .untimed))) (by rw [hn]; rfl) hclosed
    · exact hnext (.closingDump k _) (by rw [hn]; rfl) hclosed
  | awaitingDone k c =>
    cases ht
    obtain ⟨hp, hn⟩ := Task.step_onEvent i p .done c
    have hclosed : (Task.step i p (.onEvent .done c)).pipeline.stopEvent.live = none := by
      rw [hp]
      exact h
    rcases hn with ⟨hn, -⟩ | hn
    · exact hnext (.joining k) (by rw [hn]; rfl) hclosed
    · exact hnext (.awaitingDone k _) (by rw [hn]; rfl) hclosed
  | joining k =>
    cases ht
    rcases Task.step_join i p k with ⟨-, hn, -⟩ | hstays
    · exact hnext .leaving (by rw [hn]; rfl) trivial
    · rw [hstays] at hnext ⊢
      exact hnext (.joining k) rfl h
  | leaving =>
    cases ht
    exact (e'.tasks_ne_nil ht'.symm).elim

/-- An errand that waits for the end of a consumer. -/
def Awaits (k : Nat) : Errand → Prop
  | .awaitingDone k' _ | .joining k' => k' = k
  | _ => False

end Errand

namespace System

/-- Who is at an errand holds the lifecycle lock. -/
theorem Orderly.lock_of_errand {s : System} (h : s.Orderly) {i : Nat} {e : Errand}
    (ht : (s.caller i).tasks = e.tasks) : s.pipeline.lifecycle = some i ∧ e.Fits s.pipeline := by
  have hlock : s.pipeline.lifecycle = some i := by
    by_contra hne
    exact Errand.not_waits ht (h.others i hne)
  obtain ⟨e', he', hfits⟩ := h.holder i hlock
  cases Errand.tasks_injective (ht.symm.trans he')
  exact ⟨hlock, hfits⟩

/-- Others leave the stop event as open as it is to the caller that holds the lifecycle lock. -/
theorem Orderly.stop_live_next {s : System} (h : s.Orderly)
    (hsound : ∀ c ∈ s.pipeline.consumers, c.Sound) {i : Nat} (hlock : s.pipeline.lifecycle = some i)
    {m : Move} (hm : m ≠ .act (.caller i)) :
    (s.next m).pipeline.stopEvent.live = s.pipeline.stopEvent.live := by
  rcases s.event_next m .stop with he | ⟨a, call, rfl, hcall⟩
  · exact congrArg (·.live) he
  · have he := congrArg (·.live) (next_onEvent hcall).1
    cases a with
    | caller j =>
      obtain ⟨rest, ht⟩ := eventCall?_caller.1 hcall
      have hji : s.pipeline.lifecycle ≠ some j := by
        rw [hlock]
        rintro hij
        cases hij
        exact hm rfl
      rcases h.others j hji with htasks | htasks | hord
      · cases ht.symm.trans htasks
      · cases ht.symm.trans htasks
      · obtain ⟨hname, -⟩ := hord _ (ht ▸ List.mem_cons_self)
        cases hname
    | consumer j =>
      obtain ⟨c, hc, hstage⟩ := eventCall?_consumer.1 hcall
      obtain ⟨op, hop, hserves⟩ := (hsound c (List.mem_of_getElem? hc)).serves hstage
      refine he.trans (hserves.live_step _ ?_)
      simp only [EventName.consumerOps, List.mem_cons, List.not_mem_nil, or_false] at hop
      rcases hop with rfl | rfl <;> simp
    | timer j => cases hcall

/-- A stop that has closed the stop event waits for the consumer with the event closed. -/
theorem shuts_run (world : World) (ms : List Move) (i : Nat) (e : Errand)
    (ht : ((run world ms).caller i).tasks = e.tasks) : e.Shuts (run world ms).pipeline := by
  induction ms using List.reverseRecOn generalizing e with
  | nil => exact (e.tasks_ne_nil ht.symm).elim
  | append_singleton ms m ih =>
    have ho := orderly_run world ms
    rw [run_concat] at ht ⊢
    by_cases hlock : (run world ms).pipeline.lifecycle = some i
    · obtain ⟨e₀, he₀, hfits⟩ := ho.holder i hlock
      have hshuts := ih e₀ he₀
      by_cases hact : m = .act (.caller i)
      · subst hact
        cases ht₀ : e₀.tasks with
        | nil => exact (e₀.tasks_ne_nil ht₀).elim
        | cons t rest =>
          rw [next, step_caller_of_cons (he₀.trans ht₀)] at ht ⊢
          simp only [afterTask, setCaller_caller_self] at ht
          exact hshuts.step hfits i ht₀ ht
      · rw [next_caller_of_ne (by rw [he₀]; exact e₀.tasks_ne_nil) hact, he₀] at ht
        cases Errand.tasks_injective ht
        exact hshuts.mono (ho.stop_live_next (sound_run world ms) hlock hact)
    · -- it has just taken the lock, and closed nothing
      have hwaits := ho.others i hlock
      rcases caller_next (run world ms) m i with he | ⟨call, he⟩ | ⟨t, rest, ht₀, hnext⟩
      · exact (Errand.not_waits (e := e) (by rw [← he]; exact ht) hwaits).elim
      · exact (Errand.not_waits (by rw [← he]; exact ht) call.waits_begin).elim
      · rcases Errand.begins_of_waits hwaits ht₀ (hnext.symm.trans ht) with rfl | rfl <;> trivial

/-! ## Starts and stops can return -/

/-- A consumer has ended. -/
def Ended (k : Nat) (s : System) : Prop :=
  ∃ c, s.pipeline.consumers[k]? = some c ∧ c.stage = .ended

/-- A stop waits for the end of a consumer, or has seen it. -/
def Awaiting (i k : Nat) (s : System) : Prop :=
  (∃ e : Errand, e.Awaits k ∧ (s.caller i).tasks = e.tasks) ∨
    Ended k s ∧ ((s.caller i).tasks = [.unlockLifecycle] ∨ (s.caller i).tasks = [])

theorem Awaiting.next {s : System} {i k : Nat} (h : Awaiting i k s) (a : Actor) :
    Awaiting i k (s.next (.act a)) := by
  by_cases ha : a = .caller i
  · subst ha
    rcases h with ⟨e, he, ht⟩ | ⟨hended, ht | ht⟩
    · cases e with
      | awaitingDone k' c =>
        obtain rfl : k' = k := he
        rw [System.next, step_caller_of_cons ht]
        rcases (Task.step_onEvent i s.pipeline .done c).2 with ⟨hnext, -⟩ | hnext
        · exact .inl ⟨.joining k', rfl, by simp [afterTask, hnext, Errand.tasks]⟩
        · exact .inl ⟨.awaitingDone k' _, rfl, by simp [afterTask, hnext, Errand.tasks]; rfl⟩
      | joining k' =>
        obtain rfl : k' = k := he
        rcases Task.step_join i s.pipeline k' with ⟨hended, hnext, -⟩ | hstays
        · refine .inr ⟨ended_next _ hended, .inl ?_⟩
          rw [System.next, step_caller_of_cons ht]
          simp [afterTask, hnext]
        · refine .inl ⟨.joining k', rfl, ?_⟩
          rw [System.next, step_caller_of_cons ht]
          simp [afterTask, hstays, Errand.tasks]
      | _ => exact he.elim
    · refine .inr ⟨ended_next _ hended, .inr ?_⟩
      rw [System.next, step_caller_of_cons ht]
      simp [afterTask, Task.step]
    · refine .inr ⟨ended_next _ hended, .inr ?_⟩
      rwa [System.next, step_caller_of_nil ht]
  · have hact : Move.act a ≠ .act (.caller i) := fun he => ha (Move.act.inj he)
    have hsame : ((s.next (.act a)).caller i).tasks = (s.caller i).tasks := by
      cases ht : (s.caller i).tasks with
      | nil => rw [next_caller_of_idle ht (by simp), ht]
      | cons t rest => rw [next_caller_of_ne (by simp [ht]) hact, ht]
    rw [Awaiting, hsame]
    exact h.imp_right fun h => ⟨ended_next _ h.1, h.2⟩

/-- A caller is at a start or a stop, or has returned from it. -/
def StartsOrStops (i : Nat) (s : System) : Prop :=
  (s.caller i).tasks = [] ∨ .unlockLifecycle ∈ (s.caller i).tasks

/-- A caller that starts or stops the pipeline does so until it returns. -/
theorem StartsOrStops.next {s : System} {i : Nat} (h : StartsOrStops i s) (ho : s.Orderly)
    {m : Move} (hm : ∀ call, m ≠ .begin i call) : StartsOrStops i (s.next m) := by
  unfold StartsOrStops at h ⊢
  cases ht : (s.caller i).tasks with
  | nil => exact .inl (by rw [next_caller_of_idle ht hm, ht])
  | cons t rest =>
    rw [ht] at h
    by_cases hact : m = .act (.caller i)
    · subst hact
      rw [System.next, step_caller_of_cons ht]
      simp only [afterTask, setCaller_caller_self]
      rcases List.mem_cons.1 (h.resolve_left (by simp)) with rfl | hmem
      · -- giving the lock back is the last it does
        obtain ⟨e, he, -⟩ := ho.errand_of_task ht id (by simp)
        cases e <;> simp only [Errand.tasks, List.cons.injEq, reduceCtorEq, false_and] at he
        exact .inl (by rw [← he.2]; rfl)
      · exact .inr (List.mem_append_right _ hmem)
    · rw [next_caller_of_ne (by simp [ht]) hact, ht]
      exact h

/-- A call that starts or stops the pipeline goes on until it returns. -/
theorem startsOrStops_run {world : World} {i : Nat} {before : List Move} {call : Call}
    (hcall : call = .start ∨ call = .stop) (moves : List Move)
    (hidle : ((run world before).caller i).tasks = [])
    (halone : ∀ call, Move.begin i call ∉ moves) :
    StartsOrStops i (run world (before ++ .begin i call :: moves)) := by
  induction moves using List.reverseRecOn with
  | nil =>
    right
    rw [run_concat]
    rcases hcall with rfl | rfl <;>
      simp [next, System.begin, hidle, Caller.begin, Call.tasks]
  | append_singleton moves m ih =>
    rw [← List.cons_append, ← List.append_assoc, run_concat]
    refine (ih fun call hmem => halone call (by simp [hmem])).next (orderly_run world _) ?_
    rintro call' rfl
    exact halone call' (by simp)

section Leads

variable {world : World} {ms : List Move} {i k : Nat}

theorem lasts_awaiting (i k : Nat) (ms : List Move) (a : Actor)
    (h : Awaiting i k (run world ms)) : Awaiting i k (run world (ms ++ [.act a])) := by
  rw [run_concat]
  exact h.next a

theorem lasts_ended (k : Nat) (ms : List Move) (a : Actor) (h : Ended k (run world ms)) :
    Ended k (run world (ms ++ [.act a])) := by
  rw [run_concat]
  exact ended_next _ h

/-- The consumer that a stop waits for can come to its end. -/
theorem leads_to_ended (h : Awaiting i k (run world ms)) :
    Leads world ms fun s => Ended k s ∧ Awaiting i k s := by
  refine Leads.lasting (lasts_awaiting i k) h ?_
  refine ((leads_to_unlocked world ms).lasting (lasts_awaiting i k) h).trans fun ms' h => ?_
  obtain ⟨⟨hunlocked, -⟩, ⟨e, he, ht⟩ | ⟨hended, -⟩⟩ := h
  · obtain ⟨-, hfits⟩ := (orderly_run world ms').lock_of_errand ht
    have hshuts := shuts_run world ms' i e ht
    obtain ⟨hclosed, hk⟩ : (run world ms').pipeline.stopEvent.live = none ∧
        k + 1 = (run world ms').pipeline.consumers.length := by
      cases e with
      | awaitingDone k' c =>
        obtain rfl : k' = k := he
        exact ⟨hshuts, hfits.2.1.1⟩
      | joining k' =>
        obtain rfl : k' = k := he
        exact ⟨hshuts, hfits.2.1⟩
      | _ => exact he.elim
    have hc := List.getElem?_eq_getElem (l := (run world ms').pipeline.consumers) (i := k) (by omega)
    have hsound := sound_run world ms' _ (List.mem_of_getElem? hc)
    exact leads_alone (hsound.comes_to_end hunlocked hclosed) hc ⟨_, rfl⟩ fun _ _ _ => id
  · exact leads_of_now hended

/-- A caller that gives the lifecycle lock back can return. -/
theorem leads_past_leaving (ht : ((run world ms).caller i).tasks = [.unlockLifecycle]) :
    Leads world ms fun s => (s.caller i).tasks = [] := by
  refine leads_of_step (.caller i) ?_
  rw [next, step_caller_of_cons ht]
  simp [afterTask, Task.step]

theorem leads_past_last_step
    (ht : (((run world ms).next (.act (.caller i))).caller i).tasks = [.unlockLifecycle]) :
    Leads world ms fun s => (s.caller i).tasks = [] :=
  (leads_of_step (P := fun s => (s.caller i).tasks = [.unlockLifecycle]) (.caller i) ht).trans
    fun _ => leads_past_leaving

/-- A stop that waits for a consumer that has ended can return. -/
theorem leads_past_ended (hended : Ended k (run world ms)) (h : Awaiting i k (run world ms)) :
    Leads world ms fun s => (s.caller i).tasks = [] := by
  have hjoin : ∀ ms', ((run world ms').caller i).tasks = (Errand.joining k).tasks →
      Ended k (run world ms') → Leads world ms' fun s => (s.caller i).tasks = [] :=
    fun ms' ht hended => by
    obtain ⟨⟨stage, draining, room, wasDumping, stopping, drained, panicked⟩, hc, hs⟩ := hended
    cases hs
    refine leads_past_last_step ?_
    rw [next, step_caller_of_cons ht]
    simp [afterTask, Task.step, hc]
  rcases h with ⟨e, he, ht⟩ | ⟨-, ht | ht⟩
  · cases e with
    | awaitingDone k' c =>
      obtain rfl : k' = k := he
      obtain ⟨-, hfits⟩ := (orderly_run world ms).lock_of_errand ht
      refine (leads_past_call (S := Ended k') (lasts_ended k') hended ht hfits.2.2
        fun ms' slot mode _ hended' ht' hnone => ?_).trans fun ms' h => hjoin ms' h.1 h.2
      -- only an open event is waited on, and only while the consumer has not ended
      obtain ⟨k, d, hrest, hd, hs, -⟩ := awaits_run ht' rfl hnone
      cases hrest
      obtain ⟨c', hc', hs'⟩ := hended'
      cases hc'.symm.trans hd
      exact hs hs'
    | joining k' =>
      obtain rfl : k' = k := he
      exact hjoin ms ht hended
    | _ => exact he.elim
  · exact leads_past_leaving ht
  · exact leads_of_now ht

/-- A stop that waits for a consumer can return. -/
theorem leads_past_awaiting (h : Awaiting i k (run world ms)) :
    Leads world ms fun s => (s.caller i).tasks = [] :=
  (leads_to_ended h).trans fun _ h => leads_past_ended h.1 h.2

/-- A start that has found no consumer to be stopped can return. -/
theorem leads_past_spawning (h : .spawn ∈ ((run world ms).caller i).tasks) :
    Leads world ms fun s => (s.caller i).tasks = [] := by
  obtain ⟨e, harming⟩ := arming_run world ms i h
  exact (leads_to_started harming).mono fun s hs => by rw [hs]

/-- The caller that holds the lifecycle lock can return. -/
theorem leads_past_errand (hlock : (run world ms).pipeline.lifecycle = some i) :
    Leads world ms fun s => (s.caller i).tasks = [] := by
  obtain ⟨e, ht, hfits⟩ := (orderly_run world ms).holder i hlock
  have hserves : EventCall.Serves .close (.start .close) := EventCall.serves_start _
  have hdump : ∀ ms' k c, c.Serves .close →
      ((run world ms').caller i).tasks = (Errand.closingDump k c).tasks →
      Leads world ms' fun s => (s.caller i).tasks = [] := fun ms' k c hc ht =>
    (leads_past_change ht hc (by simp)).trans fun ms'' ht' =>
      leads_past_awaiting (k := k) (.inl ⟨.awaitingDone k _, rfl, ht'⟩)
  have hstop : ∀ ms' k c, c.Serves .close →
      ((run world ms').caller i).tasks = (Errand.closingStop k c).tasks →
      Leads world ms' fun s => (s.caller i).tasks = [] := fun ms' k c hc ht =>
    (leads_past_change ht hc (by simp)).trans fun ms'' ht' => hdump ms'' k _ hserves ht'
  cases e with
  | checking =>
    cases hworker : (run world ms).pipeline.worker with
    | none =>
      refine (leads_of_step (P := fun s => .spawn ∈ (s.caller i).tasks) (.caller i) ?_).trans
        fun _ => leads_past_spawning
      rw [next, step_caller_of_cons ht]
      simp [afterTask, Task.step, hworker, Task.startTasks]
    | some k =>
      refine leads_past_last_step ?_
      rw [next, step_caller_of_cons ht]
      simp [afterTask, Task.step, hworker]
  | taking =>
    cases hworker : (run world ms).pipeline.worker with
    | none =>
      refine leads_past_last_step ?_
      rw [next, step_caller_of_cons ht]
      simp [afterTask, Task.step, hworker]
    | some k =>
      refine (leads_of_step (P := fun s => (s.caller i).tasks =
        (Errand.closingStop k (.start .close)).tasks) (.caller i) ?_).trans
        fun ms' => hstop ms' k _ hserves
      rw [next, step_caller_of_cons ht]
      simp [afterTask, Task.step, hworker, Task.stopTasks, Errand.tasks]
  | rearmingStop c | rearmingDump c | rearmingDone c | spawning =>
    exact leads_past_spawning (by rw [ht]; simp [Errand.tasks])
  | closingStop k c => exact hstop ms k c hfits.2.2 ht
  | closingDump k c => exact hdump ms k c hfits.2.2 ht
  | awaitingDone k c => exact leads_past_awaiting (k := k) (.inl ⟨.awaitingDone k c, rfl, ht⟩)
  | joining k => exact leads_past_awaiting (k := k) (.inl ⟨.joining k, rfl, ht⟩)
  | leaving => exact leads_past_leaving ht

theorem lasts_startsOrStops (i : Nat) (ms : List Move) (a : Actor)
    (h : StartsOrStops i (run world ms)) : StartsOrStops i (run world (ms ++ [.act a])) := by
  rw [run_concat]
  exact h.next (orderly_run world ms) (by simp)

/-- A caller that has returned begins no call by the steps of actors. -/
theorem lasts_idle (i : Nat) (ms : List Move) (a : Actor)
    (h : ((run world ms).caller i).tasks = []) :
    ((run world (ms ++ [.act a])).caller i).tasks = [] := by
  rw [run_concat, next_caller_of_idle h (by simp), h]

/-- A start or a stop can return: so can whoever holds the lifecycle lock, and all that take it
before. -/
theorem leads_to_idle (h : StartsOrStops i (run world ms)) :
    Leads world ms fun s => (s.caller i).tasks = [] := by
  -- on the callers that have something to do, one of which returns at a time
  obtain ⟨busy, hbusy⟩ : ∃ busy : Finset Nat, ∀ j ∉ busy, ((run world ms).caller j).tasks = [] :=
    ⟨callersOf ms, fun j hj => by_contra fun hne => hj (mem_callersOf world ms j hne)⟩
  induction busy using Finset.strongInduction generalizing ms with
  | H busy ih =>
    cases hlock : (run world ms).pipeline.lifecycle with
    | some j =>
      have hj : j ∈ busy := by
        by_contra hj
        exact (orderly_run world ms).lifecycle_ne_of_nil (hbusy j hj) hlock
      have hlasts := (leads_past_errand hlock).lasting
        (P := fun s => StartsOrStops i s ∧ ∀ l ∉ busy, (s.caller l).tasks = [])
        (fun ms a hs => ⟨lasts_startsOrStops i ms a hs.1, fun l hl => lasts_idle l ms a (hs.2 l hl)⟩)
        ⟨h, hbusy⟩
      refine hlasts.trans fun ms' hs => ?_
      obtain ⟨hdone, hstill, hidle⟩ := hs
      refine ih (busy.erase j) (Finset.erase_ssubset hj) hstill fun l hl => ?_
      by_cases hlj : l = j
      · rwa [hlj]
      · exact hidle l fun hmem => hl (Finset.mem_erase.2 ⟨hlj, hmem⟩)
    | none =>
      have htakes : ∀ rest, ((run world ms).caller i).tasks = .lockLifecycle :: rest →
          Leads world ms fun s => (s.caller i).tasks = [] := fun rest ht => by
        refine (leads_of_step (P := fun s => s.pipeline.lifecycle = some i) (.caller i) ?_).trans
          fun _ => leads_past_errand
        rw [next, step_caller_of_cons ht]
        simp [afterTask, Task.step, hlock]
      rcases h with hnil | hmem
      · exact leads_of_now hnil
      · rcases (orderly_run world ms).others i (by simp [hlock]) with ht | ht | hord
        · exact htakes _ ht
        · exact htakes _ ht
        · exact (hord _ hmem).elim

end Leads

end System

end LogPipeline
