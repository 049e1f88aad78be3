import LogPipeline.Proofs.Event.Turns
import LogPipeline.Proofs.Lifecycle

/-!
# Who is at a call on an event

Callers and consumers are at calls on the three events of a pipeline
(`System.eventCall?`). A move is a step of such a call, or it leaves the event
(`next_onEvent`, `event_next`), and an actor whose step it is not stays at its call
(`eventCall_next`); and every call that an actor is at has begun and come there by its
steps (`eventCall_of_next`). So each event is used in turns, and after any run its slots
are in order (`slots_run`).
-/

namespace LogPipeline

open Sync

/-! ## Calls -/

/-- Only a broadcast and a close fire a slot. -/
theorem Sync.EventCall.Serves.of_fires {op : EventOp} {c : EventCall} (h : c.Serves op)
    {i : SlotId} (hfires : c.Fires i) : op = .broadcast ∨ op = .close := by
  unfold EventCall.Fires at hfires
  split at hfires
  · exact .inl h.symm
  · exact .inr h.symm
  · exact h.imp And.left And.left
  · exact hfires.elim

/-- Only a wait knows a slot to wait on. -/
theorem Sync.EventCall.Serves.of_holds {op : EventOp} {c : EventCall} (h : c.Serves op)
    {i : SlotId} (hholds : c.Holds i) : ∃ mode, op = .wait mode := by
  unfold EventCall.Holds at hholds
  split at hholds
  · exact ⟨_, h.symm⟩
  · exact ⟨_, h⟩
  · exact ⟨_, h⟩
  · exact ⟨_, h⟩
  · exact hholds.elim

/-- The call on an event that a consumer is at. -/
def ConsumerStage.eventCall? : ConsumerStage → Option (EventName × EventCall)
  | .awaitDump call => some (.dump, call)
  | .checkStop call | .idle call => some (.stop, call)
  | .finish call => some (.done, call)
  | _ => none

/-- What a consumer does on an event. -/
def EventName.consumerOps : EventName → List EventOp
  | .dump => [.wait .timed]
  | .stop => [.isClosed, .wait .timed]
  | .done => [.close]

/-- The call on an event that a caller is at. -/
def Caller.eventCall? (c : Caller) : Option (EventName × EventCall) :=
  match c.tasks with
  | .onEvent name call :: _ => some (name, call)
  | _ => none

theorem Caller.eventCall?_eq {c : Caller} {name : EventName} {call : EventCall} :
    c.eventCall? = some (name, call) ↔ ∃ rest, c.tasks = .onEvent name call :: rest := by
  unfold eventCall?
  constructor
  · intro h
    split at h
    · next ht =>
      cases h
      exact ⟨_, ht⟩
    · cases h
  · rintro ⟨rest, ht⟩
    rw [ht]

namespace Consumer

/-- A consumer at a call on an event takes a step of the call. -/
theorem step_onEvent {c : Consumer} {name : EventName} {call : EventCall}
    (h : c.stage.eventCall? = some (name, call)) (p : Pipeline) :
    (c.step p).1.event name = (call.step (p.event name)).1 ∧
      ((∃ reply, (call.step (p.event name)).2 = .finished reply) ∨
        (c.step p).2.stage.eventCall? = some (name, (call.step (p.event name)).2)) := by
  unfold ConsumerStage.eventCall? at h
  split at h
  case h_5 => cases h
  all_goals
    next hs =>
    cases h
    simp only [step, hs]
    refine ⟨rfl, ?_⟩
    split
    · next reply hreply => exact .inl ⟨reply, hreply⟩
    · exact .inr rfl

/-- A consumer that is not at a call on an event leaves the event. -/
theorem step_event {c : Consumer} {name : EventName}
    (h : ∀ call, c.stage.eventCall? ≠ some (name, call)) (p : Pipeline) :
    (c.step p).1.event name = p.event name := by
  have hcall : ∀ name' call, c.stage.eventCall? = some (name', call) → name ≠ name' := by
    rintro _ call hc rfl
    exact h call hc
  cases hs : c.stage with
  | awaitDump call | checkStop call | idle call | finish call =>
    have hne := hcall _ call (by simp only [ConsumerStage.eventCall?, hs]; rfl)
    simp only [step, hs]
    cases name <;> first | rfl | exact (hne rfl).elim
  | print sink rest =>
    cases rest with
    | nil => simp only [step, hs]
    | cons e rest =>
      simp only [step, hs]
      split <;> cases name <;> rfl
  | flush sink =>
    simp only [step, hs]
    split <;> cases name <;> rfl
  | _ => cases name <;> simp only [step, hs] <;> rfl

/-- A consumer comes to a call on an event at its start, or by a step of the call. -/
theorem eventCall_of_step {c : Consumer} {p : Pipeline} {name : EventName} {call : EventCall}
    (h : (c.step p).2.stage.eventCall? = some (name, call)) : (∃ op, call = .start op) ∨
      ∃ call', c.stage.eventCall? = some (name, call') ∧ call = (call'.step (p.event name)).2 := by
  cases hs : c.stage with
  | awaitDump call' =>
    simp only [step, hs] at h
    split at h <;> cases h
    · exact .inl ⟨.isClosed, rfl⟩
    · exact .inr ⟨call', rfl, rfl⟩
  | checkStop call' | idle call' | finish call' =>
    simp only [step, hs] at h
    split at h <;> cases h
    exact .inr ⟨call', rfl, rfl⟩
  | noteSwitch found =>
    simp only [step, hs] at h
    cases h
    exact .inl ⟨.wait .timed, rfl⟩
  | top =>
    simp only [step, hs] at h
    split at h <;> cases h
    exact .inl ⟨.isClosed, rfl⟩
  | decide =>
    simp only [step, hs, nextRound] at h
    split at h
    · cases h
      exact .inl ⟨.close, rfl⟩
    · split at h <;> cases h
      exact .inl ⟨.wait .timed, rfl⟩
  | print sink rest =>
    cases rest with
    | nil => simp [step, hs, ConsumerStage.eventCall?] at h
    | cons e rest =>
      simp only [step, hs] at h
      split at h <;> cases h
      exact .inl ⟨.close, rfl⟩
  | choose =>
    simp only [step, hs] at h
    split at h
    · cases h
    · split at h <;> cases h
  | takeQueue call' =>
    simp only [step, hs] at h
    split at h <;> cases h
  | _ => simp [step, hs, ConsumerStage.eventCall?] at h

theorem eventCall_of_expire {c : Consumer} {p : Pipeline} {name : EventName} {call : EventCall}
    (h : (c.expire p).stage.eventCall? = some (name, call)) :
    ∃ call', c.stage.eventCall? = some (name, call') ∧
      (call = call' ∨ call = call'.expire (p.event name)) := by
  unfold Consumer.expire at h
  split at h
  · next call' hs =>
    cases h
    exact ⟨call', by rw [hs]; rfl, .inr rfl⟩
  · next call' hs =>
    cases h
    exact ⟨call', by rw [hs]; rfl, .inr rfl⟩
  · exact ⟨call, h, .inl rfl⟩

theorem Sound.serves {c : Consumer} (h : c.Sound) {name : EventName} {call : EventCall}
    (hcall : c.stage.eventCall? = some (name, call)) :
    ∃ op ∈ name.consumerOps, call.Serves op := by
  unfold ConsumerStage.eventCall? at hcall
  split at hcall
  case h_5 => cases hcall
  all_goals
    next hs =>
    cases hcall
    simp only [Sound, hs] at h
    exact ⟨_, by simp [EventName.consumerOps], h.2⟩

/-- The end of a wait ends a call that waits. -/
theorem eventCall?_expire {c : Consumer} {name : EventName} {call : EventCall}
    (h : c.stage.eventCall? = some (name, call)) (p : Pipeline) :
    (c.expire p).stage.eventCall? = some (name, call) ∨
      (c.expire p).stage.eventCall? = some (name, call.expire (p.event name)) := by
  unfold Consumer.expire
  split
  · next hs =>
    simp only [ConsumerStage.eventCall?, hs, Option.some.injEq, Prod.mk.injEq] at h
    obtain ⟨rfl, rfl⟩ := h
    exact .inr rfl
  · next hs =>
    simp only [ConsumerStage.eventCall?, hs, Option.some.injEq, Prod.mk.injEq] at h
    obtain ⟨rfl, rfl⟩ := h
    exact .inr rfl
  · exact .inl h

end Consumer

namespace Pipeline

theorem event_setEvent (p : Pipeline) (name : EventName) (e : BroadcastEvent) :
    (p.setEvent name e).event name = e := by
  cases name <;> rfl

theorem event_setEvent_of_ne (p : Pipeline) {name name' : EventName} (h : name ≠ name')
    (e : BroadcastEvent) : (p.setEvent name' e).event name = p.event name := by
  cases name <;> cases name' <;> first | rfl | exact (h rfl).elim

end Pipeline

/-- A task that is not a call on an event leaves the event. -/
theorem Task.step_event (i : Nat) (p : Pipeline) {t : Task} {name : EventName}
    (h : ∀ call, t ≠ .onEvent name call) : (t.step i p).pipeline.event name = p.event name := by
  apply pipeline_cases (P := fun p' => p'.event name = p.event name)
  case onEvent =>
    rintro name' call rfl
    refine p.event_setEvent_of_ne ?_ _
    rintro rfl
    exact h call rfl
  case store =>
    intro setting _
    cases setting <;> cases name <;> rfl
  all_goals
    intros
    cases name <;> rfl

/-- A task that, if it is a call on an event, has yet to begin. -/
def Task.Unbegun : Task → Prop
  | .onEvent _ c => ∃ op, c = .start op
  | _ => True

/-- The tasks that a task leads to have yet to begin, unless it is a call on an event. -/
theorem Task.unbegun_next (i : Nat) (p : Pipeline) {t : Task}
    (h : ∀ name call, t ≠ .onEvent name call) : ∀ t' ∈ (t.step i p).next, t'.Unbegun := by
  cases t with
  | onEvent name call => exact (h name call rfl).elim
  | onBuffer c stake =>
    simp only [step]
    split
    · next reply _ => cases reply <;> simp [afterBuffer, Unbegun]
    · simp [Unbegun]
  | checkLevel | checkBlocks | checkDumping | lockLifecycle =>
    simp only [step]
    split <;> simp [Unbegun]
  | checkSwitch r =>
    simp only [step]
    split <;> simp [Unbegun]
  | checkThreshold queued =>
    simp only [step]
    split <;> simp [Unbegun]
  | checkStopped =>
    simp only [step]
    split <;> simp [startTasks, Unbegun]
  | takeWorker =>
    simp only [step]
    split <;> simp [stopTasks, Unbegun]
  | join k =>
    simp only [step]
    split <;> simp [Unbegun]
  | _ => simp [step, Unbegun]

theorem Call.unbegun_tasks (call : Call) : ∀ t ∈ call.tasks, t.Unbegun := by
  cases call with
  | log r =>
    simp only [tasks]
    split <;> simp [Task.Unbegun]
  | apply c =>
    simp only [tasks, applyTasks, switchFileTasks, startDumpTasks]
    split <;> simp [Task.Unbegun]
  | _ => simp [tasks, switchFileTasks, startDumpTasks, Task.Unbegun]

namespace System

/-! ## Actors -/

/-- The call on an event that an actor is at. -/
def eventCall? (s : System) : Actor → Option (EventName × EventCall)
  | .caller i => (s.caller i).eventCall?
  | .consumer j => (s.pipeline.consumers[j]?).bind fun c => c.stage.eventCall?
  | .timer _ => none

theorem eventCall?_caller {s : System} {i : Nat} {name : EventName} {call : EventCall} :
    s.eventCall? (.caller i) = some (name, call) ↔
      ∃ rest, (s.caller i).tasks = .onEvent name call :: rest := Caller.eventCall?_eq

theorem eventCall?_consumer {s : System} {j : Nat} {name : EventName} {call : EventCall} :
    s.eventCall? (.consumer j) = some (name, call) ↔
      ∃ c, s.pipeline.consumers[j]? = some c ∧ c.stage.eventCall? = some (name, call) :=
  Option.bind_eq_some_iff

/-- The step of an actor at a call on an event is a step of the call. -/
theorem next_onEvent {s : System} {a : Actor} {name : EventName} {call : EventCall}
    (h : s.eventCall? a = some (name, call)) :
    (s.next (.act a)).pipeline.event name = (call.step (s.pipeline.event name)).1 ∧
      ((∃ reply, (call.step (s.pipeline.event name)).2 = .finished reply) ∨
        (s.next (.act a)).eventCall? a = some (name, (call.step (s.pipeline.event name)).2)) := by
  cases a with
  | caller i =>
    obtain ⟨rest, ht⟩ := eventCall?_caller.1 h
    obtain ⟨hp, hnext⟩ := Task.step_onEvent i s.pipeline name call
    rw [next, step_caller_of_cons ht, eventCall?_caller]
    refine ⟨by rw [afterTask, setCaller_pipeline, hp, Pipeline.event_setEvent], ?_⟩
    rcases hnext with ⟨-, hreply⟩ | hnext
    · exact .inl hreply
    · exact .inr ⟨rest, by simp [afterTask, hnext]⟩
  | consumer j =>
    obtain ⟨c, hc, hcall⟩ := eventCall?_consumer.1 h
    obtain ⟨hlt, -⟩ := List.getElem?_eq_some_iff.1 hc
    obtain ⟨hp, hnext⟩ := c.step_onEvent hcall s.pipeline
    rw [next, step_consumer_of_some hc, eventCall?_consumer]
    refine ⟨?_, hnext.imp_right fun hnext => ⟨_, ?_, hnext⟩⟩
    · rw [← hp]
      cases name <;> rfl
    · simp [afterConsumer, hlt]
  | timer j => cases h

/-- A move is a step of a call on an event, or it leaves the event. -/
theorem event_next (s : System) (m : Move) (name : EventName) :
    (s.next m).pipeline.event name = s.pipeline.event name ∨
      ∃ a call, m = .act a ∧ s.eventCall? a = some (name, call) := by
  match m with
  | .begin i call =>
    left
    simp only [next, System.begin]
    split <;> rfl
  | .act (.caller i) =>
    cases ht : (s.caller i).tasks with
    | nil =>
      rw [next, step_caller_of_nil ht]
      exact .inl rfl
    | cons t rest =>
      by_cases hcall : ∃ call, t = .onEvent name call
      · obtain ⟨call, rfl⟩ := hcall
        exact .inr ⟨_, call, rfl, eventCall?_caller.2 ⟨rest, ht⟩⟩
      · rw [next, step_caller_of_cons ht]
        exact .inl (t.step_event i s.pipeline fun call he => hcall ⟨call, he⟩)
  | .act (.consumer j) =>
    cases hc : s.pipeline.consumers[j]? with
    | none => exact .inl (by simp [next, step, Pipeline.stepConsumer, hc])
    | some c =>
      by_cases hcall : ∃ call, c.stage.eventCall? = some (name, call)
      · obtain ⟨call, hcall⟩ := hcall
        exact .inr ⟨_, call, rfl, eventCall?_consumer.2 ⟨c, hc, hcall⟩⟩
      · left
        rw [next, step_consumer_of_some hc,
          ← c.step_event (fun call he => hcall ⟨call, he⟩) s.pipeline]
        cases name <;> rfl
  | .act (.timer j) =>
    left
    simp only [next, step, Pipeline.expireConsumer]
    split <;> cases name <;> rfl
  | .outside w =>
    left
    cases name <;> rfl

/-- An actor stays at its call until it takes a step, but for the end of its wait. -/
theorem eventCall_next {s : System} {a : Actor} {name : EventName} {call : EventCall}
    (h : s.eventCall? a = some (name, call)) {m : Move} (hm : m ≠ .act a) :
    (s.next m).eventCall? a = some (name, call) ∨
      (s.next m).eventCall? a = some (name, call.expire (s.pipeline.event name)) := by
  cases a with
  | caller i =>
    obtain ⟨rest, ht⟩ := eventCall?_caller.1 h
    left
    rw [eventCall?_caller, next_caller_of_ne (by simp [ht]) hm]
    exact ⟨rest, ht⟩
  | consumer j =>
    obtain ⟨c, hc, hcall⟩ := eventCall?_consumer.1 h
    obtain ⟨d, hd, rfl | rfl⟩ := consumer_next_of_ne hc hm
    · exact .inl (eventCall?_consumer.2 ⟨d, hd, hcall⟩)
    · rcases c.eventCall?_expire hcall s.pipeline with hcall | hcall
      · exact .inl (eventCall?_consumer.2 ⟨_, hd, hcall⟩)
      · exact .inr (eventCall?_consumer.2 ⟨_, hd, hcall⟩)
  | timer j => cases h

/-- What a caller has left to do is as it was, a call that it has begun, or what its step has
left of it. -/
theorem caller_next (s : System) (m : Move) (i : Nat) :
    (s.next m).caller i = s.caller i ∨ (∃ call, (s.next m).caller i = .begin call) ∨
      ∃ t rest, (s.caller i).tasks = t :: rest ∧
        ((s.next m).caller i).tasks = (t.step i s.pipeline).next ++ rest := by
  apply next_cases (P := fun s' => s'.caller i = s.caller i ∨
    (∃ call, s'.caller i = .begin call) ∨ ∃ t rest, (s.caller i).tasks = t :: rest ∧
      (s'.caller i).tasks = (t.step i s.pipeline).next ++ rest)
  case begin =>
    intro j call _ _
    by_cases hij : i = j
    · subst hij
      exact .inr (.inl ⟨call, setCaller_caller_self _ _ _⟩)
    · exact .inl (setCaller_caller_of_ne _ _ hij)
  case task =>
    intro j t rest ht
    by_cases hij : i = j
    · subst hij
      exact .inr (.inr ⟨t, rest, ht, by rw [afterTask, setCaller_caller_self]⟩)
    · exact .inl (setCaller_caller_of_ne _ _ hij)
  all_goals
    intros
    exact .inl rfl

/-- Of the tasks of a caller only the first has begun. -/
theorem unbegun_run (world : World) (ms : List Move) (i : Nat) :
    ∀ t ∈ ((run world ms).caller i).tasks.tail, t.Unbegun := by
  induction ms using List.reverseRecOn with
  | nil => simp [run_nil, new, Caller.idle]
  | append_singleton ms m ih =>
    rw [run_concat]
    rcases caller_next (run world ms) m i with he | ⟨call, he⟩ | ⟨t, rest, ht, he⟩ <;> rw [he]
    · exact ih
    · exact fun t ht => call.unbegun_tasks t (List.mem_of_mem_tail ht)
    · rw [ht] at ih
      intro t' ht'
      by_cases hcall : ∃ name call, t = .onEvent name call
      · obtain ⟨name, call, rfl⟩ := hcall
        rcases (Task.step_onEvent i (run world ms).pipeline name call).2 with ⟨hnext, -⟩ | hnext <;>
          rw [hnext] at ht'
        · exact ih t' (List.mem_of_mem_tail ht')
        · exact ih t' ht'
      · rcases List.mem_append.1 (List.mem_of_mem_tail ht') with ht' | ht'
        · exact t.unbegun_next i _ (fun name call he => hcall ⟨name, call, he⟩) t' ht'
        · exact ih t' ht'

/-- An actor comes to a call on an event at its start, or by a step of the call or the end of
its time. -/
theorem eventCall_of_next {s : System} (hs : ∀ i, ∀ t ∈ (s.caller i).tasks.tail, t.Unbegun)
    {m : Move} {a : Actor} {name : EventName} {call : EventCall}
    (h : (s.next m).eventCall? a = some (name, call)) : (∃ op, call = .start op) ∨
      ∃ call', s.eventCall? a = some (name, call') ∧ (call = call' ∨
        call = (call'.step (s.pipeline.event name)).2 ∨
        call = call'.expire (s.pipeline.event name)) := by
  cases a with
  | caller i =>
    obtain ⟨rest', ht'⟩ := eventCall?_caller.1 h
    have hunbegun : Task.Unbegun (.onEvent name call) → ∃ op, call = .start op := id
    rcases caller_next s m i with he | ⟨c, he⟩ | ⟨t, rest, ht, he⟩ <;> rw [he] at ht'
    · exact .inr ⟨call, eventCall?_caller.2 ⟨rest', ht'⟩, .inl rfl⟩
    · exact .inl (hunbegun (c.unbegun_tasks _ (by rw [show c.tasks = _ from ht']; simp)))
    · have hrest := hs i
      rw [ht] at hrest
      have hmem : Task.onEvent name call ∈ (t.step i s.pipeline).next ++ rest := by simp [ht']
      by_cases hcall : ∃ name' call', t = .onEvent name' call'
      · obtain ⟨name', call', rfl⟩ := hcall
        rcases (Task.step_onEvent i s.pipeline name' call').2 with ⟨hnext, -⟩ | hnext <;>
          rw [hnext] at ht' hmem
        · exact .inl (hunbegun (hrest _ hmem))
        · cases ht'
          exact .inr ⟨call', eventCall?_caller.2 ⟨_, ht⟩, .inr (.inl rfl)⟩
      · refine .inl (hunbegun ?_)
        rcases List.mem_append.1 hmem with hmem | hmem
        · exact t.unbegun_next i _ (fun name call he => hcall ⟨name, call, he⟩) _ hmem
        · exact hrest _ hmem
  | consumer j =>
    obtain ⟨d, hd, hcall⟩ := eventCall?_consumer.1 h
    rcases next_consumer hd with rfl | ⟨c, hc, rfl | rfl | rfl⟩
    · cases hcall
    · exact .inr ⟨call, eventCall?_consumer.2 ⟨d, hc, hcall⟩, .inl rfl⟩
    · refine (Consumer.eventCall_of_step hcall).imp_right fun ⟨call', hcall', he⟩ => ?_
      exact ⟨call', eventCall?_consumer.2 ⟨c, hc, hcall'⟩, .inr (.inl he)⟩
    · obtain ⟨call', hcall', he⟩ := Consumer.eventCall_of_expire hcall
      exact .inr ⟨call', eventCall?_consumer.2 ⟨c, hc, hcall'⟩, he.imp_right .inr⟩
  | timer j => cases h

/-! ## Events in use -/

/-- Some actor is at a call on an event. -/
def Calls (s : System) (name : EventName) (call : EventCall) : Prop :=
  ∃ a, s.eventCall? a = some (name, call)

/-- A move is a turn on each of the events. -/
theorem turn_next {s : System} (hs : ∀ i, ∀ t ∈ (s.caller i).tasks.tail, t.Unbegun) (m : Move)
    (name : EventName) : Turn (s.pipeline.event name) ((s.next m).pipeline.event name)
      (s.Calls name) ((s.next m).Calls name) where
  step := by
    have hstays : ∀ a d, s.eventCall? a = some (name, d) → m ≠ .act a →
        Stays (s.pipeline.event name) ((s.next m).Calls name) d := fun a d ha hm =>
      (eventCall_next ha hm).imp (⟨a, ·⟩) (⟨a, ·⟩)
    by_cases hact : ∃ a call, m = .act a ∧ s.eventCall? a = some (name, call)
    · obtain ⟨a, call, rfl, hcall⟩ := hact
      obtain ⟨he, hnext⟩ := next_onEvent hcall
      refine .inr ⟨call, ⟨a, hcall⟩, he, hnext.imp_right (⟨a, ·⟩), fun d ⟨b, hb⟩ hne => ?_⟩
      refine hstays b d hb fun hm => ?_
      cases Move.act.inj hm
      cases hcall.symm.trans hb
      exact hne rfl
    · refine .inl ⟨(s.event_next m name).resolve_right hact, fun d ⟨b, hb⟩ => ?_⟩
      exact hstays b d hb fun hm => hact ⟨b, d, hm, hb⟩
  origin d := by
    rintro ⟨a, ha⟩
    exact (eventCall_of_next hs ha).imp_right fun ⟨call', hcall', he⟩ => ⟨call', ⟨a, hcall'⟩, he⟩

theorem slots_run (world : World) (ms : List Move) (name : EventName) :
    Slots ((run world ms).pipeline.event name) ((run world ms).Calls name) := by
  induction ms using List.reverseRecOn with
  | nil =>
    have hnew : (run world []).pipeline.event name = .new := by cases name <;> rfl
    rw [hnew]
    refine Sync.slots_new fun call ⟨a, ha⟩ => ?_
    cases a with
    | caller i => cases ha
    | consumer j => cases ha
    | timer j => cases ha
  | append_singleton ms m ih =>
    rw [run_concat]
    exact ih.turn (turn_next (unbegun_run world ms) m name)

end System

end LogPipeline
