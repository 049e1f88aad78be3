import LogPipeline.Proofs.Alone
import LogPipeline.Proofs.EndEvent
import LogPipeline.Proofs.FinalFlush

/-!
# Starting again

A start that has found no consumer to be stopped opens the three events, one after the
other. All consumers have ended, and nobody else starts or stops one, so that nothing closes
an event it has opened (`Arming.next`): all are open when it starts the consumer
(`Arming.launch`), which it has done when it returns (`launching_run`); and whatever the
others have done it can go on until it returns (`leads_to_started`).
-/

namespace LogPipeline

open Sync

/-! ## A start that finds no consumer -/

/-- The tasks of an errand tell the errand. -/
theorem Errand.tasks_injective : Function.Injective Errand.tasks := by
  intro e e' h
  cases e <;> cases e' <;> simp [tasks] at h <;> simp [h]

/-- What a start that has found no consumer to be stopped has opened so far, besides the
event for stopping. -/
def Errand.Arms (p : Pipeline) : Errand → Prop
  | .rearmingStop _ => True
  | .rearmingDump c => EventCall.Rearming p.dumpEvent c
  | .rearmingDone c => p.dumpEvent.live.isSome ∧ EventCall.Rearming p.doneEvent c
  | .spawning => p.dumpEvent.live.isSome ∧ p.doneEvent.live.isSome
  | _ => False

namespace Errand

theorem Arms.mono {p p' : Pipeline} {e : Errand} (h : e.Arms p)
    (hopen : ∀ name, (p.event name).live.isSome → (p'.event name).live.isSome) : e.Arms p' := by
  cases e with
  | rearmingStop c => trivial
  | rearmingDump c => exact ⟨h.serves, h.armed.imp_right (hopen .dump)⟩
  | rearmingDone c => exact ⟨hopen .dump h.1, h.2.serves, h.2.armed.imp_right (hopen .done)⟩
  | spawning => exact ⟨hopen .dump h.1, hopen .done h.2⟩
  | _ => exact h.elim

/-- A start that has found no consumer to be stopped opens one event after the other, and
then starts a consumer. -/
theorem Arms.step {p : Pipeline} {e : Errand} (h : e.Arms p) (i : Nat) {t : Task}
    {rest : List Task} (ht : e.tasks = t :: rest) :
    (∃ e' : Errand, (t.step i p).next ++ rest = e'.tasks ∧ e'.Arms (t.step i p).pipeline ∧
        (t.step i p).pipeline.lifecycle = p.lifecycle) ∨
      e = .spawning ∧ (t.step i p).next ++ rest = [.unlockLifecycle] ∧
        (t.step i p).reply = some .started := by
  cases e with
  | rearmingStop c =>
    cases ht
    obtain ⟨hp, hnext⟩ := Task.step_onEvent i p .stop c
    rw [hp]
    rcases hnext with ⟨hnext, -⟩ | hnext <;> rw [hnext]
    · exact .inl ⟨.rearmingDump (.start .reopen), rfl, EventCall.rearming_start _, rfl⟩
    · exact .inl ⟨.rearmingStop _, rfl, trivial, rfl⟩
  | rearmingDump c =>
    cases ht
    obtain ⟨hp, hnext⟩ := Task.step_onEvent i p .dump c
    have hstep := EventCall.Rearming.step h
    rw [hp]
    rcases hnext with ⟨hnext, reply, hreply⟩ | hnext <;> rw [hnext]
    · rw [show p.event .dump = p.dumpEvent from rfl] at hreply
      exact .inl ⟨.rearmingDone (.start .reopen), rfl,
        ⟨(hreply ▸ hstep).isSome_of_finished, EventCall.rearming_start _⟩, rfl⟩
    · exact .inl ⟨.rearmingDump _, rfl, hstep, rfl⟩
  | rearmingDone c =>
    cases ht
    obtain ⟨hp, hnext⟩ := Task.step_onEvent i p .done c
    have hstep := EventCall.Rearming.step h.2
    rw [hp]
    rcases hnext with ⟨hnext, reply, hreply⟩ | hnext <;> rw [hnext]
    · rw [show p.event .done = p.doneEvent from rfl] at hreply
      exact .inl ⟨.spawning, rfl, ⟨h.1, (hreply ▸ hstep).isSome_of_finished⟩, rfl⟩
    · exact .inl ⟨.rearmingDone _, rfl, ⟨h.1, hstep⟩, rfl⟩
  | spawning =>
    cases ht
    exact .inr ⟨rfl, rfl, rfl⟩
  | _ => exact h.elim

end Errand

/-- Who comes to start a consumer has just found none to be stopped. -/
theorem Task.checkStopped_of_spawn {i : Nat} {p : Pipeline} {t : Task}
    (h : .spawn ∈ (t.step i p).next) : t = .checkStopped ∧ p.worker = none := by
  cases t with
  | checkStopped =>
    simp only [step] at h
    split at h
    · cases h
    · next hworker => exact ⟨rfl, by simpa using hworker⟩
  | onEvent name c =>
    rcases (step_onEvent i p name c).2 with ⟨hnext, -⟩ | hnext <;> simp [hnext] at h
  | onBuffer c stake =>
    simp only [step] at h
    split at h
    · next reply _ => cases reply <;> simp [afterBuffer] at h
    · simp at h
  | takeWorker =>
    simp only [step] at h
    split at h <;> simp [stopTasks] at h
  | checkSwitch | checkLevel | checkBlocks | checkDumping | checkThreshold | lockLifecycle | join =>
    simp only [step] at h
    split at h <;> simp at h
  | _ => simp [step] at h

namespace System

/-- A caller that holds the lifecycle lock has found no consumer to be stopped, and opens the
events to start one. -/
structure Arming (i : Nat) (e : Errand) (s : System) : Prop where
  tasks : (s.caller i).tasks = e.tasks
  lock : s.pipeline.lifecycle = some i
  arms : e.Arms s.pipeline

/-- While a caller holds the lifecycle lock, others leave it to it. -/
theorem Orderly.lifecycle_next {s : System} (h : s.Orderly) {i : Nat}
    (hlock : s.pipeline.lifecycle = some i) {m : Move} (hm : m ≠ .act (.caller i)) :
    (s.next m).pipeline.lifecycle = some i := by
  match m with
  | .begin j call =>
    simp only [next, System.begin]
    split <;> exact hlock
  | .act (.caller j) =>
    have hji : j ≠ i := fun hji => hm (by rw [hji])
    cases ht : (s.caller j).tasks with
    | nil => rwa [next, step_caller_of_nil ht]
    | cons t rest =>
      rw [next, step_caller_of_cons ht]
      exact (h.lifecycle_afterTask hlock hji ht).1
  | .act (.consumer j) =>
    simp only [next, step, Pipeline.stepConsumer]
    split
    · simpa using hlock
    · exact hlock
  | .act (.timer j) =>
    simp only [next, step, Pipeline.expireConsumer]
    split <;> exact hlock
  | .outside w => exact hlock

/-- While all consumers have ended, nobody but the caller that holds the lifecycle lock closes
an event. -/
theorem Orderly.open_next {s : System} (h : s.Orderly) {i : Nat}
    (hlock : s.pipeline.lifecycle = some i) (hall : s.pipeline.AllEnded) {m : Move}
    (hm : m ≠ .act (.caller i)) (name : EventName) (hopen : (s.pipeline.event name).live.isSome) :
    ((s.next m).pipeline.event name).live.isSome := by
  rcases s.event_next m name with he | ⟨a, call, rfl, hcall⟩
  · rwa [he]
  · rw [(next_onEvent hcall).1]
    cases a with
    | caller j =>
      obtain ⟨rest, ht⟩ := eventCall?_caller.1 hcall
      have hji : s.pipeline.lifecycle ≠ some j := by
        rw [hlock]
        rintro hij
        cases hij
        exact hm rfl
      rcases h.others j hji with htasks | htasks | hord
      · cases ht.symm.trans htasks
      · cases ht.symm.trans htasks
      · -- all that others do on an event is to broadcast on the one for dumping
        obtain ⟨-, hserves⟩ := hord _ (ht ▸ List.mem_cons_self)
        rcases EventCall.step_live (s.pipeline.event name) call with
          ⟨hlive, -⟩ | ⟨op, a, rfl, hlive, -⟩
        · rwa [hlive]
        · cases hserves.1
          rw [hlive]
          rfl
    | consumer j =>
      obtain ⟨c, hc, hstage⟩ := eventCall?_consumer.1 hcall
      rw [hall c (List.mem_of_getElem? hc)] at hstage
      cases hstage
    | timer j => cases hcall

namespace Arming

variable {s : System} {i : Nat} {e : Errand}

theorem fits (h : Arming i e s) (ho : s.Orderly) : e.Fits s.pipeline := by
  obtain ⟨e', he', hfits⟩ := ho.holder i h.lock
  cases Errand.tasks_injective (h.tasks.symm.trans he')
  exact hfits

theorem allEnded (h : Arming i e s) (ho : s.Orderly) : s.pipeline.AllEnded := by
  have hfits := h.fits ho
  have harms := h.arms
  cases e with
  | rearmingStop c | rearmingDump c | rearmingDone c | spawning => exact hfits.2.1
  | _ => exact harms.elim

theorem next (h : Arming i e s) (ho : s.Orderly) {m : Move} (hm : m ≠ .act (.caller i)) :
    Arming i e (s.next m) where
  tasks := by
    rw [next_caller_of_ne (by rw [h.tasks]; exact e.tasks_ne_nil) hm]
    exact h.tasks
  lock := ho.lifecycle_next h.lock hm
  arms := h.arms.mono (ho.open_next h.lock (h.allEnded ho) hm)

end Arming

/-- With a move a consumer is started: it is a new one, it is the one to be stopped from then
on, and all events are open. -/
structure Launch (s : System) (m : Move) : Prop where
  consumers : (s.next m).pipeline.consumers = s.pipeline.consumers ++ [.new]
  worker : (s.next m).pipeline.worker = some s.pipeline.consumers.length
  opened : ∀ name, ((s.next m).pipeline.event name).live.isSome

theorem Arming.launch {s : System} {i : Nat} (h : Arming i .spawning s) (ho : s.Orderly) :
    s.Launch (.act (.caller i)) := by
  have hfits := h.fits ho
  obtain ⟨hdump, hdone⟩ := h.arms
  have htasks : (s.caller i).tasks = [.spawn, .unlockLifecycle] := h.tasks
  constructor <;> rw [System.next, step_caller_of_cons htasks]
  · rfl
  · rfl
  · rintro (_ | _ | _)
    · exact hdump
    · exact hfits.2.2
    · exact hdone

/-- Among some moves after a run is one with which a caller starts a consumer. -/
def Launches (world : World) (i : Nat) (front moves : List Move) : Prop :=
  ∃ arming leaving, moves = arming ++ .act (.caller i) :: leaving ∧
    (run world (front ++ arming)).Launch (.act (.caller i))

theorem Launches.append {world : World} {i : Nat} {front moves : List Move}
    (h : Launches world i front moves) (later : List Move) :
    Launches world i front (moves ++ later) := by
  obtain ⟨arming, leaving, rfl, hlaunch⟩ := h
  exact ⟨arming, leaving ++ later, by simp, hlaunch⟩

/-- A caller has got its answer, and gives the lifecycle lock back. -/
def Answered (i : Nat) (r : Reply) (s : System) : Prop :=
  (s.caller i).reply = some r ∧
    ((s.caller i).tasks = [.unlockLifecycle] ∨ (s.caller i).tasks = [])

theorem Arming.step {s : System} {i : Nat} {e : Errand} (h : Arming i e s) (ho : s.Orderly) :
    (∃ e', Arming i e' (s.next (.act (.caller i)))) ∨
      Answered i .started (s.next (.act (.caller i))) ∧ s.Launch (.act (.caller i)) := by
  cases ht : e.tasks with
  | nil => exact (e.tasks_ne_nil ht).elim
  | cons t rest =>
    have hnext := step_caller_of_cons (h.tasks.trans ht)
    rcases h.arms.step i ht with ⟨e', htasks, harms, hlock⟩ | ⟨rfl, htasks, hreply⟩
    · rw [System.next, hnext]
      exact .inl ⟨e', by simpa [afterTask] using htasks, hlock.trans h.lock, harms⟩
    · refine .inr ⟨?_, h.launch ho⟩
      rw [System.next, hnext]
      exact ⟨by simp [afterTask, hreply], .inl (by simpa [afterTask] using htasks)⟩

theorem Answered.next {s : System} {i : Nat} {r : Reply} (h : Answered i r s) {m : Move}
    (hm : ∀ call, m ≠ .begin i call) : Answered i r (s.next m) := by
  obtain ⟨hreply, htasks | htasks⟩ := h
  · by_cases hact : m = .act (.caller i)
    · subst hact
      rw [System.next, step_caller_of_cons htasks]
      exact ⟨by simp [afterTask, Task.step, hreply], .inr (by simp [afterTask, Task.step])⟩
    · rw [Answered, next_caller_of_ne (by simp [htasks]) hact]
      exact ⟨hreply, .inl htasks⟩
  · rw [Answered, next_caller_of_idle htasks hm]
    exact ⟨hreply, .inr htasks⟩

/-- A start that has found no consumer to be stopped goes on to start one, and has done so when
it has its answer. -/
theorem launching_run {world : World} {i : Nat} {front : List Move} (after : List Move)
    (hcheck : ((run world front).caller i).tasks = [.checkStopped, .unlockLifecycle])
    (hnone : (run world front).pipeline.worker = none)
    (halone : ∀ call, Move.begin i call ∉ after) :
    (∃ e, Arming i e (run world (front ++ .act (.caller i) :: after))) ∨
      Answered i .started (run world (front ++ .act (.caller i) :: after)) ∧
        Launches world i (front ++ [.act (.caller i)]) after := by
  induction after using List.reverseRecOn with
  | nil =>
    obtain ⟨-, -, -, hlock⟩ := (orderly_run world front).errand_of_task hcheck id (by simp)
    rw [run_concat, next, step_caller_of_cons hcheck]
    refine .inl ⟨.rearmingStop (.start .reopen), ?_, ?_, trivial⟩
    · simp [afterTask, Task.step, hnone, Task.startTasks, Errand.tasks]
    · simpa [afterTask, Task.step, hnone] using hlock
  | append_singleton after m ih =>
    rw [← List.cons_append, ← List.append_assoc, run_concat]
    have hm : ∀ call, m ≠ .begin i call := by
      rintro call rfl
      exact halone call (by simp)
    rcases ih fun call hmem => halone call (by simp [hmem]) with
      ⟨e, harming⟩ | ⟨hanswered, hlaunches⟩
    · by_cases hact : m = .act (.caller i)
      · subst hact
        refine (harming.step (orderly_run world _)).imp_right fun h => ⟨h.1, after, [], rfl, ?_⟩
        simpa using h.2
      · exact .inl ⟨e, harming.next (orderly_run world _) hact⟩
    · exact .inr ⟨hanswered.next hm, hlaunches.append [m]⟩

/-- A start that has found a consumer to be stopped says so. -/
theorem refused_run {world : World} {i : Nat} {front : List Move} (after : List Move)
    (hcheck : ((run world front).caller i).tasks = [.checkStopped, .unlockLifecycle])
    (hsome : (run world front).pipeline.worker.isSome)
    (halone : ∀ call, Move.begin i call ∉ after) :
    Answered i .alreadyRunning (run world (front ++ .act (.caller i) :: after)) := by
  induction after using List.reverseRecOn with
  | nil =>
    rw [run_concat, next, step_caller_of_cons hcheck]
    exact ⟨by simp [afterTask, Task.step, hsome], .inl (by simp [afterTask, Task.step, hsome])⟩
  | append_singleton after m ih =>
    rw [← List.cons_append, ← List.append_assoc, run_concat]
    refine (ih fun call hmem => halone call (by simp [hmem])).next ?_
    rintro call rfl
    exact halone call (by simp)

/-- Whoever is about to start a consumer has found none to be stopped. -/
theorem arming_run (world : World) (ms : List Move) (i : Nat)
    (hspawn : .spawn ∈ ((run world ms).caller i).tasks) : ∃ e, Arming i e (run world ms) := by
  induction ms using List.reverseRecOn with
  | nil => cases hspawn
  | append_singleton ms m ih =>
    have ho := orderly_run world ms
    have not_answered : ∀ {s : System}, .spawn ∈ (s.caller i).tasks → ¬Answered i .started s := by
      rintro s hmem ⟨-, htasks | htasks⟩ <;> simp [htasks] at hmem
    rw [run_concat] at hspawn ⊢
    by_cases hact : m = .act (.caller i)
    · subst hact
      cases ht : ((run world ms).caller i).tasks with
      | nil =>
        rw [next, step_caller_of_nil ht, ht] at hspawn
        cases hspawn
      | cons t rest =>
        by_cases hbefore : .spawn ∈ t :: rest
        · obtain ⟨e, harming⟩ := ih (ht ▸ hbefore)
          exact (harming.step ho).resolve_right fun h => not_answered hspawn h.1
        · -- it comes to this by its look at the consumer to be stopped
          have hnext : .spawn ∈ (t.step i (run world ms).pipeline).next := by
            rw [next, step_caller_of_cons ht, afterTask, setCaller_caller_self] at hspawn
            exact (List.mem_append.1 hspawn).resolve_right fun hmem =>
              hbefore (List.mem_cons_of_mem t hmem)
          obtain ⟨rfl, hnone⟩ := Task.checkStopped_of_spawn hnext
          obtain ⟨e, he, -⟩ := ho.errand_of_task ht id (by simp)
          obtain rfl : rest = [.unlockLifecycle] := by
            cases e <;> simp only [Errand.tasks, List.cons.injEq, reduceCtorEq, false_and] at he
            exact he.2.symm
          have hlaunching := launching_run [] ht hnone (by simp)
          rw [run_concat] at hlaunching
          exact hlaunching.resolve_right fun h => not_answered hspawn h.1
    · have hbefore : .spawn ∈ ((run world ms).caller i).tasks := by
        rcases caller_next (run world ms) m i with he | ⟨call, he⟩ | ⟨t, rest, ht, -⟩
        · rwa [he] at hspawn
        · rw [he] at hspawn
          rcases call.waits_begin with htasks | htasks | hord
          · simp [htasks] at hspawn
          · simp [htasks] at hspawn
          · exact (hord _ hspawn).elim
        · rwa [next_caller_of_ne (by simp [ht]) hact] at hspawn
      obtain ⟨e, harming⟩ := ih hbefore
      exact ⟨e, harming.next ho hact⟩

/-- A start that has begun waits for the lifecycle lock, or has it, or has looked whether there
is a consumer to be stopped. -/
theorem checks_run {world : World} {i : Nat} {before : List Move} (moves : List Move)
    (hidle : ((run world before).caller i).tasks = [])
    (halone : ∀ call, Move.begin i call ∉ moves) :
    ((run world (before ++ .begin i .start :: moves)).caller i).tasks =
        [.lockLifecycle, .checkStopped, .unlockLifecycle] ∨
      ((run world (before ++ .begin i .start :: moves)).caller i).tasks =
        [.checkStopped, .unlockLifecycle] ∨
      ∃ waiting after, moves = waiting ++ .act (.caller i) :: after ∧
        ((run world (before ++ .begin i .start :: waiting)).caller i).tasks =
          [.checkStopped, .unlockLifecycle] := by
  induction moves using List.reverseRecOn with
  | nil =>
    left
    rw [run_concat]
    simp [next, System.begin, hidle, Caller.begin, Call.tasks]
  | append_singleton moves m ih =>
    have hstays : m ≠ .act (.caller i) →
        ((run world (before ++ .begin i .start :: moves)).caller i).tasks ≠ [] →
        ((run world (before ++ .begin i .start :: (moves ++ [m]))).caller i).tasks =
          ((run world (before ++ .begin i .start :: moves)).caller i).tasks := fun hact hne => by
      rw [← List.cons_append, ← List.append_assoc, run_concat, next_caller_of_ne hne hact]
    rcases ih fun call hmem => halone call (by simp [hmem]) with ht | ht | ⟨waiting, after, rfl, ht⟩
    · by_cases hact : m = .act (.caller i)
      · subst hact
        rw [← List.cons_append, ← List.append_assoc, run_concat, next, step_caller_of_cons ht]
        simp only [afterTask, setCaller_caller_self, Task.step]
        split
        · exact .inr (.inl rfl)
        · exact .inl rfl
      · exact .inl ((hstays hact (by simp [ht])).trans ht)
    · by_cases hact : m = .act (.caller i)
      · subst hact
        exact .inr (.inr ⟨moves, [], rfl, ht⟩)
      · exact .inr (.inl ((hstays hact (by simp [ht])).trans ht))
    · exact .inr (.inr ⟨waiting, after ++ [m], by simp, ht⟩)

/-- A start that has returned has looked whether there is a consumer to be stopped, while it
held the lifecycle lock. If there was one it was refused, and if there was none it has started
one since. -/
theorem answered_run {world : World} {i : Nat} {before moves : List Move}
    (hidle : ((run world before).caller i).tasks = [])
    (halone : ∀ call, Move.begin i call ∉ moves)
    (hreturned : ((run world (before ++ .begin i .start :: moves)).caller i).tasks = []) :
    ∃ waiting after, moves = waiting ++ .act (.caller i) :: after ∧
      let look := before ++ .begin i .start :: waiting
      let reply := ((run world (before ++ .begin i .start :: moves)).caller i).reply
      (run world look).pipeline.lifecycle = some i ∧
        ((run world look).caller i).tasks = [.checkStopped, .unlockLifecycle] ∧
        ((run world look).pipeline.worker.isSome → reply = some .alreadyRunning) ∧
        ((run world look).pipeline.worker = none →
          reply = some .started ∧ Launches world i (look ++ [.act (.caller i)]) after) := by
  rcases checks_run moves hidle halone with ht | ht | ⟨waiting, after, rfl, ht⟩
  · cases ht.symm.trans hreturned
  · cases ht.symm.trans hreturned
  · obtain ⟨-, -, -, hlock⟩ := (orderly_run world _).errand_of_task ht id (by simp)
    have halone' : ∀ call, Move.begin i call ∉ after := fun call hmem =>
      halone call (by simp [hmem])
    rw [← List.cons_append, ← List.append_assoc] at hreturned ⊢
    refine ⟨waiting, after, rfl, hlock, ht, fun hsome => ?_, fun hnone => ?_⟩
    · exact (refused_run after ht hsome halone').1
    · rcases launching_run after ht hnone halone' with ⟨e, harming⟩ | ⟨hanswered, hlaunches⟩
      · exact (e.tasks_ne_nil (harming.tasks.symm.trans hreturned)).elim
      · exact ⟨hanswered.1, hlaunches⟩

/-! ## A start can always go on -/

/-- Some steps of actors lead on from a run to a state. -/
def Leads (world : World) (ms : List Move) (P : System → Prop) : Prop :=
  ∃ actors : List Actor, P (run world (ms ++ actors.map .act))

section Leads

variable {world : World} {ms : List Move} {P Q : System → Prop}

theorem Leads.trans (h : Leads world ms P) (hnext : ∀ ms', P (run world ms') → Leads world ms' Q) :
    Leads world ms Q := by
  obtain ⟨actors, hP⟩ := h
  obtain ⟨actors', hQ⟩ := hnext _ hP
  exact ⟨actors ++ actors', by rwa [List.map_append, ← List.append_assoc]⟩

theorem Leads.mono (h : Leads world ms P) (hPQ : ∀ s, P s → Q s) : Leads world ms Q := by
  obtain ⟨actors, hP⟩ := h
  exact ⟨actors, hPQ _ hP⟩

theorem leads_of_now (h : P (run world ms)) : Leads world ms P := ⟨[], by simpa using h⟩

theorem leads_of_step (a : Actor) (h : P ((run world ms).next (.act a))) : Leads world ms P :=
  ⟨[a], by rwa [List.map_singleton, run_concat]⟩

/-- What every step keeps lasts. -/
theorem lasts_run (hlasts : ∀ ms a, P (run world ms) → P (run world (ms ++ [.act a])))
    (h : P (run world ms)) (actors : List Actor) : P (run world (ms ++ actors.map .act)) := by
  induction actors using List.reverseRecOn with
  | nil => simpa using h
  | append_singleton actors a ih =>
    rw [List.map_append, ← List.append_assoc]
    exact hlasts _ a ih

/-- What lasts is so wherever a run can come. -/
theorem Leads.lasting (hlasts : ∀ ms a, P (run world ms) → P (run world (ms ++ [.act a])))
    (hP : P (run world ms)) (h : Leads world ms Q) : Leads world ms fun s => Q s ∧ P s := by
  obtain ⟨actors, hQ⟩ := h
  exact ⟨actors, hQ, lasts_run hlasts hP actors⟩

variable {i : Nat} {name : EventName} {rest : List Task}

/-- Whoever holds the lock of an event can give it back. -/
theorem leads_to_free {op : EventOp} {a : Acquisition}
    (ht : ((run world ms).caller i).tasks = .onEvent name (.enter op a) :: rest) :
    Leads world ms fun s => (s.caller i).tasks = .onEvent name (.enter op a) :: rest ∧
      (s.pipeline.event name).lock = .free := by
  cases hlock : ((run world ms).pipeline.event name).lock with
  | free => exact leads_of_now ⟨ht, hlock⟩
  | held =>
    obtain ⟨op', slot, b, hb⟩ := (slots_run world ms name).held hlock
    refine leads_of_step b ⟨?_, by rw [(next_onEvent hb).1]; rfl⟩
    rw [next_caller_of_ne (by simp [ht]), ht]
    rintro hib
    cases hib
    obtain ⟨rest', ht'⟩ := eventCall?_caller.1 hb
    cases ht.symm.trans ht'

/-- A caller can come past its call on an event, if each slot on which it comes to wait has fired.
What lasts meanwhile holds afterwards. -/
theorem leads_past_call {S : System → Prop}
    (hlasts : ∀ ms a, S (run world ms) → S (run world (ms ++ [.act a])))
    {op : EventOp} {call : EventCall} (hS : S (run world ms))
    (ht : ((run world ms).caller i).tasks = .onEvent name call :: rest) (hserves : call.Serves op)
    (hfired : ∀ ms' slot mode, op = .wait mode → S (run world ms') →
      ((run world ms').caller i).tasks = .onEvent name (.waiting slot mode) :: rest →
      ((run world ms').pipeline.event name).fired? slot ≠ none) :
    Leads world ms fun s => (s.caller i).tasks = rest ∧ S s := by
  induction hn : call.distance using Nat.strongRecOn generalizing ms call with
  | ind n ih =>
    subst hn
    -- with the lock free, or past it, the next step takes the call on
    have hstep : ∀ ms', S (run world ms') →
        ((run world ms').caller i).tasks = .onEvent name call :: rest →
        (∀ op a, call = .enter op a → ((run world ms').pipeline.event name).lock = .free) →
        Leads world ms' fun s => (s.caller i).tasks = rest ∧ S s := fun ms' hS' ht' hfree => by
      have hS'' := hlasts ms' (.caller i) hS'
      rw [run_concat] at hS''
      have hwait : ∀ slot mode, call = .waiting slot mode →
          ((run world ms').pipeline.event name).fired? slot ≠ none := by
        rintro slot mode rfl
        exact hfired ms' slot mode hserves hS' ht'
      have htasks : (((run world ms').next (.act (.caller i))).caller i).tasks =
          (Task.step i (run world ms').pipeline (.onEvent name call)).next ++ rest := by
        rw [next, step_caller_of_cons ht']
        simp [afterTask]
      rcases EventCall.distance_step hfree hwait with ⟨reply, hreply⟩ | hnear
      · exact leads_of_step (.caller i) ⟨by simpa [Task.step, hreply] using htasks, hS''⟩
      · rcases (Task.step_onEvent i (run world ms').pipeline name call).2 with
          ⟨hnext, -⟩ | hnext <;> rw [hnext] at htasks
        · exact leads_of_step (.caller i) ⟨htasks, hS''⟩
        · rw [← run_concat] at htasks hS''
          obtain ⟨actors, h⟩ := ih _ hnear hS'' htasks (hserves.step _) rfl
          exact ⟨.caller i :: actors, by simpa using h⟩
    by_cases henter : ∃ op a, call = .enter op a
    · obtain ⟨op', a, rfl⟩ := henter
      obtain ⟨actors, ⟨ht', hfree⟩, hS'⟩ := (leads_to_free ht).lasting hlasts hS
      obtain ⟨actors', h⟩ := hstep _ hS' ht' fun _ _ _ => hfree
      exact ⟨actors ++ actors', by simpa using h⟩
    · exact hstep ms hS ht fun op' a he => (henter ⟨op', a, he⟩).elim

/-- A caller that opens an event, or closes it, can come to what it does next. -/
theorem leads_past_change {op : EventOp} {call : EventCall}
    (ht : ((run world ms).caller i).tasks = .onEvent name call :: rest) (hserves : call.Serves op)
    (hop : ∀ mode, op ≠ .wait mode) : Leads world ms fun s => (s.caller i).tasks = rest := by
  have h := leads_past_call (S := fun _ => True) (fun _ _ _ => trivial) trivial ht hserves
    fun _ _ mode he => (hop mode he).elim
  exact h.mono fun _ hs => hs.1

/-- A start that has found no consumer to be stopped can start one and return. -/
theorem leads_to_started {e : Errand} (h : Arming i e (run world ms)) :
    Leads world ms fun s => s.caller i = ⟨[], some .started⟩ := by
  have hspawn : ∀ ms', ((run world ms').caller i).tasks = [.spawn, .unlockLifecycle] →
      Leads world ms' fun s => s.caller i = ⟨[], some .started⟩ := fun ms' ht => by
    refine (leads_of_step (P := fun s => s.caller i = ⟨[.unlockLifecycle], some .started⟩)
      (.caller i) ?_).trans fun ms'' ht' => leads_of_step (.caller i) ?_
    · rw [next, step_caller_of_cons ht]
      simp [afterTask, Task.step]
    · rw [next, step_caller_of_cons (show ((run world ms'').caller i).tasks = _ by rw [ht'])]
      simp [afterTask, Task.step, ht']
  have hserves : EventCall.Serves .reopen (.start .reopen) := EventCall.serves_start _
  have hdone : ∀ ms' c, c.Serves .reopen →
      ((run world ms').caller i).tasks = (Errand.rearmingDone c).tasks →
      Leads world ms' fun s => s.caller i = ⟨[], some .started⟩ := fun ms' c hc ht =>
    (leads_past_change ht hc (by simp)).trans hspawn
  have hdump : ∀ ms' c, c.Serves .reopen →
      ((run world ms').caller i).tasks = (Errand.rearmingDump c).tasks →
      Leads world ms' fun s => s.caller i = ⟨[], some .started⟩ := fun ms' c hc ht =>
    (leads_past_change ht hc (by simp)).trans fun ms'' => hdone ms'' _ hserves
  have hfits := h.fits (orderly_run world ms)
  have harms := h.arms
  cases e with
  | rearmingStop c =>
    exact (leads_past_change h.tasks hfits.2.2.serves (by simp)).trans fun ms'' => hdump ms'' _ hserves
  | rearmingDump c => exact hdump ms c hfits.2.2.2 h.tasks
  | rearmingDone c => exact hdone ms c hfits.2.2.2 h.tasks
  | spawning => exact hspawn ms h.tasks
  | _ => exact harms.elim

end Leads

/-- A start that has its answer can return. -/
theorem leads_to_returned {world : World} {ms : List Move} {i : Nat} {r : Reply}
    (h : Answered i r (run world ms)) : Leads world ms fun s => s.caller i = ⟨[], some r⟩ := by
  obtain ⟨hreply, htasks | htasks⟩ := h
  · refine leads_of_step (.caller i) ?_
    rw [next, step_caller_of_cons htasks]
    simp [afterTask, Task.step, hreply]
  · refine leads_of_now ?_
    rw [← htasks, ← hreply]

end System

end LogPipeline
