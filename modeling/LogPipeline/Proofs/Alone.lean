import LogPipeline.Proofs.Actors

/-!
# A consumer alone

Once nobody holds a lock, nothing keeps a consumer but its waits, and these come to an end. So
a consumer that nobody hinders takes the queue and is through with all that was in it, unless a
sink panics (`Consumer.Sound.comes_to_drained`); and while the pipeline is to stop it comes to
its end (`Consumer.Sound.comes_to_end`).
-/

namespace LogPipeline

open Sync

/-! ## Calls on events -/

namespace Sync.EventCall

/-- How far a call is from its end: the steps it takes once it has the lock, and the one that
takes it. -/
def distance : EventCall → Nat
  | enter .. => 5
  | leave .. => 4
  | register .. => 3
  | waiting .. => 2
  | fire .. | poll _ | unregister .. => 1
  | finished _ => 0

/-- Whether a call has the lock. -/
def Locks : EventCall → Prop
  | leave .. => True
  | _ => False

/-- A step of a call ends it or brings it nearer to its end, unless it tries for a lock that is
held or waits on a slot that has not fired. -/
theorem distance_step {e : BroadcastEvent} {c : EventCall}
    (hfree : ∀ op a, c = .enter op a → e.lock = .free)
    (hwait : ∀ slot mode, c = .waiting slot mode → e.fired? slot ≠ none) :
    (∃ reply, (c.step e).2 = .finished reply) ∨ (c.step e).2.distance < c.distance := by
  cases c with
  | enter op a =>
    rcases step_enter e op a with ⟨-, -, hc⟩ | ⟨hheld, -⟩
    · rw [hc]
      exact .inr (by simp [distance])
    · cases (hfree op a rfl).symm.trans hheld
  | leave op slot =>
    cases op with
    | wait mode => cases slot <;> cases mode <;> simp [step, afterLock, distance]
    | _ => cases slot <;> simp [step, afterLock, distance]
  | register slot mode => exact .inr (by simp [step, distance])
  | waiting slot mode =>
    obtain ⟨status, hstatus⟩ := Option.ne_none_iff_exists'.1 (hwait slot mode rfl)
    exact .inr (by simp [step, hstatus, distance])
  | fire | poll | unregister | finished => exact .inl ⟨_, rfl⟩

/-- A call that has taken the lock gives it back with its next step. -/
theorem free_step {e : BroadcastEvent} {c : EventCall} (hfree : c.Locks ∨ e.lock = .free) :
    (c.step e).2.Locks ∨ (c.step e).1.lock = .free := by
  cases c with
  | enter op a =>
    have hlock : e.lock = .free := hfree.resolve_left id
    rcases step_enter e op a with ⟨-, -, hc⟩ | ⟨hheld, -⟩
    · rw [hc]
      exact .inl trivial
    · cases hlock.symm.trans hheld
  | leave op slot => exact .inr rfl
  | waiting slot mode =>
    refine .inr ?_
    simp only [step]
    split <;> exact hfree.resolve_left id
  | _ => exact .inr (hfree.resolve_left id)

end Sync.EventCall

/-! ## The calls of a consumer -/

/-- Nobody holds a lock of the pipeline. -/
structure Pipeline.Unlocked (p : Pipeline) : Prop where
  event : ∀ name, (p.event name).lock = .free
  buffer : p.buffer.lock = .free

theorem Pipeline.Unlocked.setEvent {p : Pipeline} (h : p.Unlocked) {e : BroadcastEvent}
    (he : e.lock = .free) (name : EventName) : (p.setEvent name e).Unlocked where
  event name' := by
    by_cases hname : name' = name
    · subst hname
      rwa [Pipeline.event_setEvent]
    · rw [Pipeline.event_setEvent_of_ne _ hname]
      exact h.event name'
  buffer := by
    cases name <;> exact h.buffer

theorem Pipeline.setEvent_setEvent (p : Pipeline) (name : EventName) (e e' : BroadcastEvent) :
    (p.setEvent name e).setEvent name e' = p.setEvent name e' := by
  cases name <;> rfl

/-- A stage at a call on an event, at another call. -/
def ConsumerStage.setCall (call : EventCall) : ConsumerStage → ConsumerStage
  | awaitDump _ => awaitDump call
  | checkStop _ => checkStop call
  | idle _ => idle call
  | finish _ => finish call
  | stage => stage

/-- A stage at which the queue is yet to be taken in a round. -/
def ConsumerStage.BeforeQueue : ConsumerStage → Prop
  | top | seekSwitch | noteSwitch _ | awaitDump _ | checkStop _ | idle _ => True
  | _ => False

/-- A stage at which a round is yet to be ended. -/
def ConsumerStage.InRound : ConsumerStage → Prop
  | takeQueue _ | choose | dump | pickSink | print _ _ | flush _ | decide => True
  | _ => False

namespace Consumer

/-- A consumer at a call on an event, at another call. -/
def setCall (c : Consumer) (call : EventCall) : Consumer :=
  { c with stage := c.stage.setCall call }

/-- What a consumer does once its call on an event has ended. -/
def resume (c : Consumer) (reply : EventReply) : Consumer :=
  match c.stage with
  | .awaitDump _ => { c with stage := .checkStop (.start .isClosed) }
  | .checkStop _ =>
    { c with
      stopping := reply == .closed true
      stage := .takeQueue (.exchange c.draining c.room) }
  | .idle _ => { c with stage := .top }
  | .finish _ => { c with stage := .ended }
  | _ => c

variable {p : Pipeline} {c : Consumer} {name : EventName} {call : EventCall}

theorem eventCall?_setCall (h : c.stage.eventCall? = some (name, call)) (call' : EventCall) :
    (c.setCall call').stage.eventCall? = some (name, call') := by
  unfold ConsumerStage.eventCall? at h
  split at h <;> cases h <;>
    next hs => simp [setCall, hs, ConsumerStage.setCall, ConsumerStage.eventCall?]

theorem resume_setCall (h : c.stage.eventCall? = some (name, call)) (call' : EventCall)
    (reply : EventReply) : (c.setCall call').resume reply = c.resume reply := by
  unfold ConsumerStage.eventCall? at h
  split at h <;> cases h <;>
    next hs => simp [setCall, hs, ConsumerStage.setCall, resume]

/-- A step of a consumer at a call on an event is a step of the call, and it goes on when the
call has ended. -/
theorem step_call (h : c.stage.eventCall? = some (name, call)) (p : Pipeline) :
    (c.step p).1 = p.setEvent name (call.step (p.event name)).1 ∧
      ((∃ reply, (call.step (p.event name)).2 = .finished reply ∧
          (c.step p).2 = c.resume reply) ∨
        (∀ reply, (call.step (p.event name)).2 ≠ .finished reply) ∧
          (c.step p).2 = c.setCall (call.step (p.event name)).2) := by
  unfold ConsumerStage.eventCall? at h
  split at h
  case h_5 => cases h
  all_goals
    next hs =>
    cases h
    refine ⟨by simp only [step, hs]; rfl, ?_⟩
    simp only [step, hs, resume, setCall, ConsumerStage.setCall]
    split
    · next reply hreply => exact .inl ⟨reply, hreply, rfl⟩
    · next hne => exact .inr ⟨hne, rfl⟩

/-- A consumer that goes on alone can come to where a property holds: by its steps, and by the
end of its waits. -/
inductive Comes (P : Pipeline → Consumer → Prop) : Pipeline → Consumer → Prop
  | here {p : Pipeline} {c : Consumer} (h : P p c) : Comes P p c
  | step {p : Pipeline} {c : Consumer} (h : Comes P (c.step p).1 (c.step p).2) : Comes P p c
  | expire {p : Pipeline} {c : Consumer} (h : Comes P p (c.expire p)) : Comes P p c

theorem Comes.trans {P Q : Pipeline → Consumer → Prop} (h : Comes P p c)
    (hnext : ∀ p c, P p c → Comes Q p c) : Comes Q p c := by
  induction h with
  | here h => exact hnext _ _ h
  | step _ ih => exact .step ih
  | expire _ ih => exact .expire ih

/-- Only a timed wait of a consumer comes to where it waits, and its time comes to an end. -/
theorem Sound.expire_waiting {slot : SlotId} {mode : WaitMode} (h : c.Sound)
    (hcall : c.stage.eventCall? = some (name, .waiting slot mode)) (p : Pipeline) :
    c.expire p = c.setCall (.unregister slot ((p.event name).fired? slot)) := by
  cases hs : c.stage with
  | awaitDump call' | idle call' =>
    simp only [hs, ConsumerStage.eventCall?, Option.some.injEq, Prod.mk.injEq] at hcall
    obtain ⟨rfl, rfl⟩ := hcall
    simp only [Sound, hs, EventCall.Serves] at h
    obtain rfl := (EventOp.wait.inj h.2).symm
    simp [Consumer.expire, hs, EventCall.expire, setCall, ConsumerStage.setCall, Pipeline.event]
  | checkStop call' | finish call' =>
    simp only [hs, ConsumerStage.eventCall?, Option.some.injEq, Prod.mk.injEq] at hcall
    obtain ⟨rfl, rfl⟩ := hcall
    simp [Sound, hs, EventCall.Serves] at h
  | _ => simp [hs, ConsumerStage.eventCall?] at hcall

/-- The call of a consumer on an event ends. It leaves the event unlocked, and as open as it was
unless it is the one that says that the consumer has ended. -/
theorem Sound.comes_through_call (h : c.Sound)
    (hcall : c.stage.eventCall? = some (name, call))
    (hfree : call.Locks ∨ (p.event name).lock = .free) :
    Comes (fun p' c' => ∃ e reply, e.lock = .free ∧
      (name = .done ∨ e.live = (p.event name).live) ∧ p' = p.setEvent name e ∧
      c' = c.resume reply) p c := by
  induction hn : call.distance using Nat.strongRecOn generalizing p c call with
  | ind n ih =>
    subst hn
    by_cases hwaits : ∃ slot mode, call = .waiting slot mode
    · obtain ⟨slot, mode, rfl⟩ := hwaits
      have hlock : (p.event name).lock = .free := hfree.resolve_left id
      have hexpired := h.expire_waiting hcall p
      have hnext : (c.setCall (.unregister slot ((p.event name).fired? slot))).Sound :=
        hexpired ▸ h.expire p
      have := ih 1 (Nat.lt_succ_self 1) hnext (eventCall?_setCall hcall _) (.inr hlock) rfl
      simp only [resume_setCall hcall] at this
      exact .expire (by rwa [hexpired])
    · have hlive : name = .done ∨ (call.step (p.event name)).1.live = (p.event name).live := by
        obtain ⟨op, hop, hserves⟩ := h.serves hcall
        cases name with
        | done => exact .inl rfl
        | dump | stop =>
          refine .inr (hserves.live_step _ ?_)
          simp only [EventName.consumerOps, List.mem_cons, List.not_mem_nil, or_false] at hop
          rcases hop with rfl | rfl <;> simp
      obtain ⟨hp, ⟨reply, hreply, hc⟩ | ⟨hne, hc⟩⟩ := step_call hcall p
      · have hunlocked := EventCall.free_step hfree
        rw [hreply] at hunlocked
        exact .step (.here ⟨_, reply, hunlocked.resolve_left id, hlive, hp, hc⟩)
      · have hnear : (call.step (p.event name)).2.distance < call.distance := by
          refine (EventCall.distance_step ?_ fun slot mode he => ?_).resolve_left ?_
          · rintro op a rfl
            exact hfree.resolve_left id
          · exact (hwaits ⟨slot, mode, he⟩).elim
          · rintro ⟨reply, he⟩
            exact hne reply he
        have hnext := h.step p
        rw [hc] at hnext
        have := ih _ hnear (p := (c.step p).1) hnext (eventCall?_setCall hcall _)
          (by rw [hp, Pipeline.event_setEvent]; exact EventCall.free_step hfree) rfl
        refine .step ?_
        rw [hc]
        refine this.trans fun p' c' h => .here ?_
        obtain ⟨e, reply, hunlocked, hopen, rfl, rfl⟩ := h
        refine ⟨e, reply, hunlocked, ?_, ?_, resume_setCall hcall _ _⟩
        · rw [hp, Pipeline.event_setEvent] at hopen
          exact hopen.elim .inl fun he => hlive.imp_right he.trans
        · rw [hp, Pipeline.setEvent_setEvent]

/-- Only a consumer that takes the queue is at work on it. -/
theorem step_buffer (h : ∀ call, c.stage ≠ .takeQueue call) (p : Pipeline) :
    (c.step p).1.buffer = p.buffer := by
  cases hs : c.stage with
  | takeQueue call => exact (h call hs).elim
  | print sink rest =>
    cases rest with
    | nil => simp only [step, hs]
    | cons e rest =>
      simp only [step, hs]
      split <;> rfl
  | flush sink =>
    simp only [step, hs]
    split <;> rfl
  | _ => simp only [step, hs] <;> rfl

/-- What a consumer that goes on alone leaves as it was: nobody holds a lock, the pipeline is as
much to stop as before, and nothing is queued. -/
structure Onward (p p' : Pipeline) (c' : Consumer) : Prop where
  unlocked : p'.Unlocked
  stopLive : p'.stopEvent.live = p.stopEvent.live
  incoming : p.buffer.incoming = [] → p'.buffer.incoming = []
  sound : c'.Sound

theorem Onward.trans {p' p'' : Pipeline} {c' c'' : Consumer} (h : Onward p p' c')
    (h' : Onward p' p'' c'') : Onward p p'' c'' :=
  ⟨h'.unlocked, h'.stopLive.trans h.stopLive, h'.incoming ∘ h.incoming, h'.sound⟩

/-- A consumer that goes on alone can come to where a property holds, with locks and the stop
event as they were. -/
def Reaches (Q : Consumer → Prop) (p : Pipeline) (c : Consumer) : Prop :=
  Comes (fun p' c' => Onward p p' c' ∧ Q c') p c

namespace Reaches

variable {Q R : Consumer → Prop}

theorem here (hp : p.Unlocked) (h : c.Sound) (hq : Q c) : Reaches Q p c :=
  Comes.here ⟨⟨hp, rfl, id, h⟩, hq⟩

theorem trans (h : Reaches Q p c)
    (hnext : ∀ p' c', Onward p p' c' → Q c' → Reaches R p' c') : Reaches R p c := by
  refine Comes.trans h fun p' c' hc => Comes.trans (hnext p' c' hc.1 hc.2) fun p'' c'' hc' => ?_
  exact .here ⟨hc.1.trans hc'.1, hc'.2⟩

/-- A step that takes the consumer neither to an event nor to the queue. -/
theorem of_step (hp : p.Unlocked) (h : c.Sound) (hevent : c.stage.eventCall? = none)
    (hqueue : ∀ call, c.stage ≠ .takeQueue call)
    (hnext : (c.step p).1.Unlocked → (c.step p).2.Sound → Reaches Q (c.step p).1 (c.step p).2) :
    Reaches Q p c := by
  have hevents : ∀ name, (c.step p).1.event name = p.event name := fun name =>
    c.step_event (fun call hcall => by cases hevent.symm.trans hcall) p
  have hbuffer := step_buffer hqueue p
  have honward : Onward p (c.step p).1 (c.step p).2 :=
    ⟨⟨fun name => (congrArg (·.lock) (hevents name)).trans (hp.event name),
      by rw [hbuffer]; exact hp.buffer⟩, congrArg (·.live) (hevents .stop),
      by rw [hbuffer]; exact id, h.step p⟩
  exact Comes.step (Comes.trans (hnext honward.unlocked honward.sound) fun _ _ hc =>
    .here ⟨honward.trans hc.1, hc.2⟩)

end Reaches

theorem Sound.resume (h : c.Sound) (reply : EventReply) : (c.resume reply).Sound := by
  unfold Sound at h
  cases hs : c.stage with
  | awaitDump call' =>
    simp only [hs] at h
    simp only [Consumer.resume, hs]
    exact ⟨h.1, EventCall.serves_start _⟩
  | checkStop call' =>
    simp only [hs] at h
    simp only [Consumer.resume, hs]
    exact ⟨h.1, by rw [h.1]; exact BufferCall.fetches_exchange _⟩
  | idle call' | finish call' =>
    simp only [hs] at h
    simp only [Consumer.resume, hs]
    exact h.1
  | _ => simp_all [Consumer.resume, Sound]

/-- A call of a consumer ends, other than the one that says that it has ended. -/
theorem Sound.reaches_resume (h : c.Sound) (hp : p.Unlocked)
    (hcall : c.stage.eventCall? = some (name, call)) (hname : name ≠ .done) :
    Reaches (fun c' => ∃ reply, c' = c.resume reply) p c := by
  refine (h.comes_through_call hcall (.inr (hp.event name))).trans fun p' c' hc => .here ?_
  obtain ⟨e, reply, hlock, hlive, rfl, rfl⟩ := hc
  refine ⟨⟨hp.setEvent hlock name, ?_, ?_, h.resume reply⟩, reply, rfl⟩
  · have he := hlive.resolve_left hname
    cases name with
    | stop => exact he
    | dump | done => rfl
  · cases name <;> exact id

/-! ## To the queue -/

/-- A consumer that is about to look whether the pipeline is to stop. -/
def Checks (c : Consumer) : Prop := c.stage = .checkStop (.start .isClosed)

/-- A consumer that is about to take the queue. -/
def Takes (c : Consumer) : Prop := ∃ room, c.stage = .takeQueue (.exchange [] room)

/-- A consumer that is about to take the queue takes all of it. -/
theorem Takes.comes_to_emptied (ht : c.Takes) (hp : p.Unlocked) :
    Comes (fun p' c' => Onward p p' c' ∧ c'.stage = .choose ∧ p'.buffer.incoming = []) p c := by
  obtain ⟨room, hs⟩ := ht
  refine Comes.step (Comes.step (Comes.step ?_))
  simp only [Consumer.step, hs, BufferCall.exchange, BufferCall.step, hp.buffer, SpinLock.attempt,
    RecordBuffer.perform]
  exact .here ⟨⟨⟨hp.event, rfl⟩, rfl, fun _ => rfl, by simp [Sound]⟩, rfl, rfl⟩

/-- A consumer is through with what it has taken, or a sink has panicked at it. -/
def Through (stopping : Bool) (c : Consumer) : Prop :=
  c.stage = .decide ∧ c.stopping = stopping ∨
    c.stage = .finish (.start .close) ∧ c.panicked = true

namespace Sound

/-- The end of a wait while entries are dumped. -/
theorem reaches_checks_of_awaits (h : c.Sound) (hp : p.Unlocked) {call : EventCall}
    (hs : c.stage = .awaitDump call) : Reaches Checks p c := by
  have hcall : c.stage.eventCall? = some (.dump, call) := by rw [hs]; rfl
  refine (h.reaches_resume hp hcall (by simp)).trans ?_
  rintro p' c' honward ⟨reply, rfl⟩
  exact .here honward.unlocked honward.sound (by simp [Checks, Consumer.resume, hs])

theorem reaches_checks_of_note (h : c.Sound) (hp : p.Unlocked) {found : Bool}
    (hs : c.stage = .noteSwitch found) : Reaches Checks p c :=
  .of_step hp h (by rw [hs]; rfl) (by simp [hs]) fun hp' h' =>
    h'.reaches_checks_of_awaits hp' (by simp only [Consumer.step, hs]; rfl)

theorem reaches_checks_of_seek (h : c.Sound) (hp : p.Unlocked) (hs : c.stage = .seekSwitch) :
    Reaches Checks p c :=
  .of_step hp h (by rw [hs]; rfl) (by simp [hs]) fun hp' h' =>
    h'.reaches_checks_of_note hp' (by simp only [Consumer.step, hs]; rfl)

/-- From the top of its loop a consumer comes to look. -/
theorem reaches_checks_of_top (h : c.Sound) (hp : p.Unlocked) (hs : c.stage = .top) :
    Reaches Checks p c := by
  refine .of_step hp h (by rw [hs]; rfl) (by simp [hs]) fun hp' h' => ?_
  cases hdumping : p.dumping with
  | true => exact h'.reaches_checks_of_seek hp' (by simp [Consumer.step, hs, hdumping])
  | false => exact .here hp' h' (by simp [Checks, Consumer.step, hs, hdumping])

/-- The end of a wait for entries to print. -/
theorem reaches_checks_of_idle (h : c.Sound) (hp : p.Unlocked) {call : EventCall}
    (hs : c.stage = .idle call) : Reaches Checks p c := by
  have hcall : c.stage.eventCall? = some (.stop, call) := by rw [hs]; rfl
  refine (h.reaches_resume hp hcall (by simp)).trans ?_
  rintro p' c' honward ⟨reply, rfl⟩
  exact honward.sound.reaches_checks_of_top honward.unlocked (by simp [Consumer.resume, hs])

/-- A consumer that looks sees whether the stop event is closed, and goes on to take the queue. -/
theorem reaches_takes_of_checks (h : c.Sound) (hp : p.Unlocked) (hs : c.Checks) :
    Reaches (fun c' => c'.Takes ∧ c'.stopping = p.stopEvent.live.isNone) p c := by
  have hlock : p.stopEvent.lock = .free := hp.event .stop
  have hsame : { p.stopEvent with lock := .free } = p.stopEvent := by rw [← hlock]
  simp only [Checks] at hs
  simp only [Sound, hs] at h
  -- it takes the lock of the event, and gives it back
  refine Comes.step (Comes.step (.here ?_))
  simp only [Consumer.step, hs, EventCall.start, EventCall.step, hlock, SpinLock.attempt,
    BroadcastEvent.exchange, EventCall.afterLock, hsame]
  refine ⟨⟨hp, rfl, id, h.1, by rw [h.1]; exact BufferCall.fetches_exchange _⟩,
    ⟨c.room, by rw [h.1]⟩, ?_⟩
  cases p.stopEvent.live <;> rfl

/-- A consumer that has looked goes on to take the queue. -/
theorem reaches_takes_of_looks (h : c.Sound) (hp : p.Unlocked) {call : EventCall}
    (hs : c.stage = .checkStop call) : Reaches Takes p c := by
  have hcall : c.stage.eventCall? = some (.stop, call) := by rw [hs]; rfl
  refine (h.reaches_resume hp hcall (by simp)).trans ?_
  rintro p' c' honward ⟨reply, rfl⟩
  simp only [Sound, hs] at h
  exact .here honward.unlocked honward.sound ⟨c.room, by simp [Consumer.resume, hs, h.1]⟩

/-- Wherever a consumer has not yet taken the queue in this round, it comes to take it. -/
theorem reaches_takes (h : c.Sound) (hp : p.Unlocked) (hround : c.stage.BeforeQueue) :
    Reaches Takes p c := by
  have hchecks : Reaches Checks p c → Reaches Takes p c := fun hr => hr.trans fun _ _ ho hs =>
    (ho.sound.reaches_takes_of_checks ho.unlocked hs).trans fun _ _ ho' ht =>
      .here ho'.unlocked ho'.sound ht.1
  cases hs : c.stage with
  | top => exact hchecks (h.reaches_checks_of_top hp hs)
  | seekSwitch => exact hchecks (h.reaches_checks_of_seek hp hs)
  | noteSwitch found => exact hchecks (h.reaches_checks_of_note hp hs)
  | awaitDump call => exact hchecks (h.reaches_checks_of_awaits hp hs)
  | checkStop call => exact h.reaches_takes_of_looks hp hs
  | idle call => exact hchecks (h.reaches_checks_of_idle hp hs)
  | _ => simp [ConsumerStage.BeforeQueue, hs] at hround

/-! ## Through what was taken -/

/-- A step in a round, other than one on the queue. -/
theorem reaches_through_of_step (h : c.Sound) (hp : p.Unlocked) (hround : c.stage.InRound)
    (hqueue : ∀ call, c.stage ≠ .takeQueue call)
    (hnext : (c.step p).1.Unlocked → (c.step p).2.Sound →
      Reaches (Through (c.step p).2.stopping) (c.step p).1 (c.step p).2) :
    Reaches (Through c.stopping) p c := by
  have hevent : c.stage.eventCall? = none := by
    cases hs : c.stage <;> simp [ConsumerStage.InRound, hs] at hround <;> rfl
  have hsame : (c.step p).2.stopping = c.stopping := by
    cases hs : c.stage with
    | print sink rest =>
      cases rest with
      | nil => simp only [Consumer.step, hs]
      | cons e rest =>
        simp only [Consumer.step, hs]
        split <;> rfl
    | _ => simp_all [Consumer.step, ConsumerStage.InRound]
  rw [hsame] at hnext
  exact .of_step hp h hevent hqueue hnext

theorem reaches_through_of_flushes (h : c.Sound) (hp : p.Unlocked) {sink : Sink}
    (hs : c.stage = .flush sink) : Reaches (Through c.stopping) p c :=
  h.reaches_through_of_step hp (by rw [hs]; trivial) (by simp [hs]) fun hp' h' =>
    .here hp' h' (.inl ⟨by simp [Consumer.step, hs], rfl⟩)

/-- What is left to print is printed, up to the line at which the sink panics. -/
theorem reaches_through_of_prints (h : c.Sound) (hp : p.Unlocked) {sink : Sink}
    {rest : List Entry} (hs : c.stage = .print sink rest) : Reaches (Through c.stopping) p c := by
  induction rest generalizing p c with
  | nil =>
    exact h.reaches_through_of_step hp (by rw [hs]; trivial) (by simp [hs]) fun hp' h' =>
      h'.reaches_through_of_flushes hp'
        (show (c.step p).2.stage = .flush sink by simp only [Consumer.step, hs])
  | cons e rest ih =>
    refine h.reaches_through_of_step hp (by rw [hs]; trivial) (by simp [hs]) fun hp' h' => ?_
    by_cases hpanics : sink.panics (p.records sink.channel).length = true
    · exact .here hp' h' (.inr (by simp [Consumer.step, hs, hpanics]))
    · exact ih h' hp' (by simp [Consumer.step, hs, hpanics])

theorem reaches_through_of_picks (h : c.Sound) (hp : p.Unlocked) (hs : c.stage = .pickSink) :
    Reaches (Through c.stopping) p c :=
  h.reaches_through_of_step hp (by rw [hs]; trivial) (by simp [hs]) fun hp' h' =>
    h'.reaches_through_of_prints hp' (by simp only [Consumer.step, hs]; rfl)

theorem reaches_through_of_dumps (h : c.Sound) (hp : p.Unlocked) (hs : c.stage = .dump) :
    Reaches (Through c.stopping) p c :=
  h.reaches_through_of_step hp (by rw [hs]; trivial) (by simp [hs]) fun hp' h' =>
    .here hp' h' (.inl ⟨by simp [Consumer.step, hs], rfl⟩)

/-- What was taken is dumped or printed, unless it is nothing. -/
theorem reaches_through_of_chooses (h : c.Sound) (hp : p.Unlocked) (hs : c.stage = .choose) :
    Reaches (Through c.stopping) p c := by
  refine h.reaches_through_of_step hp (by rw [hs]; trivial) (by simp [hs]) fun hp' h' => ?_
  by_cases hnil : c.draining = []
  · exact .here hp' h' (.inl ⟨by simp [Consumer.step, hs, hnil], rfl⟩)
  cases hdumping : p.dumping with
  | true => exact h'.reaches_through_of_dumps hp' (by simp [Consumer.step, hs, hnil, hdumping])
  | false => exact h'.reaches_through_of_picks hp' (by simp [Consumer.step, hs, hnil, hdumping])

/-- A consumer that is at the queue takes it. -/
theorem reaches_chooses (h : c.Sound) (hp : p.Unlocked) {call : BufferCall}
    (hs : c.stage = .takeQueue call) :
    Reaches (fun c' => c'.stage = .choose ∧ c'.stopping = c.stopping) p c := by
  have hdone : ∀ {b : RecordBuffer} {c' : Consumer}, b.lock = .free →
      (p.buffer.incoming = [] → b.incoming = []) → c'.stage = .choose →
      c'.stopping = c.stopping → Comes (fun p' c' => Onward p p' c' ∧ c'.stage = .choose ∧
        c'.stopping = c.stopping) { p with buffer := b } c' := fun hb hincoming hs' hsame =>
    .here ⟨⟨⟨hp.event, hb⟩, rfl, hincoming, by simp [Sound, hs']⟩, hs', hsame⟩
  simp only [Sound, hs] at h
  obtain ⟨-, hfetches⟩ := h
  cases call with
  | enter op a =>
    cases op with
    | exchange entries room =>
      -- nobody has the lock, so that it takes it, publishes the length and gives it back
      obtain ⟨rfl, -⟩ := hfetches
      refine Comes.step (Comes.step (Comes.step ?_))
      simp only [Consumer.step, hs, BufferCall.step, hp.buffer, SpinLock.attempt,
        RecordBuffer.perform]
      exact hdone rfl (fun _ => rfl) rfl rfl
    | _ => exact hfetches.elim
  | publish reply =>
    cases reply with
    | drained entries room =>
      refine Comes.step (Comes.step ?_)
      simp only [Consumer.step, hs, BufferCall.step]
      exact hdone rfl id rfl rfl
    | _ => exact hfetches.elim
  | leave reply =>
    cases reply with
    | drained entries room =>
      refine Comes.step ?_
      simp only [Consumer.step, hs, BufferCall.step]
      exact hdone rfl id rfl rfl
    | _ => exact hfetches.elim
  | _ => exact hfetches.elim

/-- Wherever a consumer is in a round, it comes through it. -/
theorem reaches_through (h : c.Sound) (hp : p.Unlocked) (hround : c.stage.InRound) :
    Reaches (Through c.stopping) p c := by
  cases hs : c.stage with
  | takeQueue call =>
    refine (h.reaches_chooses hp hs).trans fun p' c' ho hc => ?_
    rw [← hc.2]
    exact ho.sound.reaches_through_of_chooses ho.unlocked hc.1
  | choose => exact h.reaches_through_of_chooses hp hs
  | dump => exact h.reaches_through_of_dumps hp hs
  | pickSink => exact h.reaches_through_of_picks hp hs
  | print sink rest => exact h.reaches_through_of_prints hp hs
  | flush sink => exact h.reaches_through_of_flushes hp hs
  | decide => exact .here hp h (.inl ⟨hs, rfl⟩)
  | _ => simp [ConsumerStage.InRound, hs] at hround

/-- A consumer that is not to stop comes to take the queue once more, unless a sink panics. -/
theorem reaches_takes_again (h : c.Sound) (hp : p.Unlocked) (hstopping : c.stopping = false)
    (hround : c.stage.BeforeQueue ∨ c.stage.InRound) :
    Reaches (fun c' => c'.Takes ∨ c'.panicked = true) p c := by
  rcases hround with hround | hround
  · exact (h.reaches_takes hp hround).trans fun p' c' ho ht =>
      .here ho.unlocked ho.sound (.inl ht)
  · refine (h.reaches_through hp hround).trans fun p' c' ho hc => ?_
    rcases hc with ⟨hs, hsame⟩ | ⟨hs, hpanicked⟩
    · have hnext : (c'.step p').2.stage.BeforeQueue := by
        simp only [Consumer.step, hs, nextRound, hsame, hstopping]
        split
        · next h => cases h
        · split <;> trivial
      refine .of_step ho.unlocked ho.sound (by rw [hs]; rfl) (by simp [hs]) fun hp' h' => ?_
      exact (h'.reaches_takes hp' hnext).trans fun p'' c'' ho' ht =>
        .here ho'.unlocked ho'.sound (.inl ht)
    · exact .here ho.unlocked ho.sound (.inr hpanicked)

/-- A consumer that is not to stop comes to where nothing is left in the queue or in its hands,
unless a sink panics. -/
theorem comes_to_drained (h : c.Sound) (hp : p.Unlocked) (hstopping : c.stopping = false)
    (hround : c.stage.BeforeQueue ∨ c.stage.InRound) :
    Comes (fun p' c' => p'.buffer.incoming = [] ∧ c'.stage = .decide ∨ c'.panicked = true) p c := by
  refine Comes.trans (h.reaches_takes_again hp hstopping hround) fun p₁ c₁ hc => ?_
  obtain ⟨ho₁, htakes | hpanicked⟩ := hc
  · refine Comes.trans (htakes.comes_to_emptied ho₁.unlocked) fun p₂ c₂ hc => ?_
    obtain ⟨ho₂, hs, hnil⟩ := hc
    refine Comes.trans (ho₂.sound.reaches_through_of_chooses ho₂.unlocked hs) fun p₃ c₃ hc => ?_
    obtain ⟨ho₃, ⟨hs₃, -⟩ | ⟨-, hpanicked⟩⟩ := hc
    · exact .here (.inl ⟨ho₃.incoming hnil, hs₃⟩)
    · exact .here (.inr hpanicked)
  · exact .here (.inr hpanicked)

/-! ## To the end -/

/-- A consumer says that it has ended, and ends. -/
theorem comes_to_end_of_finishes (h : c.Sound) (hp : p.Unlocked) {call : EventCall}
    (hs : c.stage = .finish call) : Comes (fun _ c' => c'.stage = .ended) p c := by
  have hcall : c.stage.eventCall? = some (.done, call) := by rw [hs]; rfl
  refine (h.comes_through_call hcall (.inr (hp.event _))).trans fun p' c' hc => .here ?_
  obtain ⟨e, reply, -, -, -, rfl⟩ := hc
  simp [Consumer.resume, hs]

/-- A round that began when the pipeline was to stop is the last one. -/
theorem comes_to_end_of_round (h : c.Sound) (hp : p.Unlocked) (hround : c.stage.InRound)
    (hstopping : c.stopping = true) : Comes (fun _ c' => c'.stage = .ended) p c := by
  refine Comes.trans (h.reaches_through hp hround) fun p' c' hc => ?_
  obtain ⟨ho, ⟨hs, hsame⟩ | ⟨hs, -⟩⟩ := hc
  · have hstep : c'.step p' = (p', { c' with stage := .finish (.start .close) }) := by
      simp [Consumer.step, hs, nextRound, hsame, hstopping]
    refine .step ?_
    have hsound := ho.sound.step p'
    rw [hstep] at hsound ⊢
    exact hsound.comes_to_end_of_finishes ho.unlocked rfl
  · exact ho.sound.comes_to_end_of_finishes ho.unlocked hs

/-- While the pipeline is to stop, a round that has yet to look is the last one. -/
theorem comes_to_end_of_checks (hclosed : p.stopEvent.live = none) (hr : Reaches Checks p c) :
    Comes (fun _ c' => c'.stage = .ended) p c := by
  refine Comes.trans hr fun p₁ c₁ hc => ?_
  obtain ⟨ho, hchecks⟩ := hc
  refine Comes.trans (ho.sound.reaches_takes_of_checks ho.unlocked hchecks) fun p₂ c₂ hc => ?_
  obtain ⟨ho₂, ⟨room, hs⟩, hstopping⟩ := hc
  refine ho₂.sound.comes_to_end_of_round ho₂.unlocked (by rw [hs]; trivial) ?_
  rw [hstopping, ho.stopLive, hclosed]
  rfl

/-- While the pipeline is to stop, a consumer comes to its end from the end of a round. -/
theorem comes_to_end_of_decides (h : c.Sound) (hp : p.Unlocked)
    (hclosed : p.stopEvent.live = none) (hs : c.stage = .decide) :
    Comes (fun _ c' => c'.stage = .ended) p c := by
  by_cases hstopping : c.stopping = true
  · exact h.comes_to_end_of_round hp (by rw [hs]; trivial) hstopping
  · have hsound := h.step p
    have hstep : c.step p = (p, { c with stage := c.nextRound }) := by
      simp only [Consumer.step, hs]
    rw [hstep] at hsound
    refine .step ?_
    rw [hstep]
    by_cases hidle : c.wasDumping = false ∧ c.drained = 0
    · exact comes_to_end_of_checks hclosed
        (hsound.reaches_checks_of_idle hp (by simp [nextRound, hstopping, hidle]; rfl))
    · exact comes_to_end_of_checks hclosed
        (hsound.reaches_checks_of_top hp (by simpa [nextRound, hstopping] using hidle))

/-- While the pipeline is to stop, a consumer that nobody hinders comes to its end. -/
theorem comes_to_end (h : c.Sound) (hp : p.Unlocked) (hclosed : p.stopEvent.live = none) :
    Comes (fun _ c' => c'.stage = .ended) p c := by
  have hthrough : ∀ {p c}, c.Sound → p.Unlocked → p.stopEvent.live = none → c.stage.InRound →
      Comes (fun _ c' => c'.stage = .ended) p c := fun h hp hclosed hround =>
    Comes.trans (h.reaches_through hp hround) fun p' c' hc => by
      obtain ⟨ho, ⟨hs, -⟩ | ⟨hs, -⟩⟩ := hc
      · exact ho.sound.comes_to_end_of_decides ho.unlocked (ho.stopLive.trans hclosed) hs
      · exact ho.sound.comes_to_end_of_finishes ho.unlocked hs
  cases hs : c.stage with
  | top => exact comes_to_end_of_checks hclosed (h.reaches_checks_of_top hp hs)
  | seekSwitch => exact comes_to_end_of_checks hclosed (h.reaches_checks_of_seek hp hs)
  | noteSwitch found => exact comes_to_end_of_checks hclosed (h.reaches_checks_of_note hp hs)
  | awaitDump call => exact comes_to_end_of_checks hclosed (h.reaches_checks_of_awaits hp hs)
  | idle call => exact comes_to_end_of_checks hclosed (h.reaches_checks_of_idle hp hs)
  | checkStop call =>
    -- it may have looked before the event was closed
    refine Comes.trans (h.reaches_takes_of_looks hp hs) fun p' c' hc => ?_
    obtain ⟨ho, room, hs'⟩ := hc
    exact hthrough ho.sound ho.unlocked (ho.stopLive.trans hclosed) (by rw [hs']; trivial)
  | finish call => exact h.comes_to_end_of_finishes hp hs
  | ended => exact .here hs
  | _ => exact hthrough h hp hclosed (by rw [hs]; trivial)

end Sound

end Consumer

end LogPipeline
