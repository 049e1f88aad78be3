import LogPipeline.Proofs.Progress

/-!
# The lifecycle of consumers

Consumers are started and stopped any number of times, by any callers, and end in between,
after a stop or because a sink has panicked. A start that finds no consumer to be stopped can
always return, and has started one then (`leads_to_launched`). `every_run_keeps_lifecycle`
gathers what every run keeps to.
-/

namespace LogPipeline

open Sync

namespace System

/-- Only a stop takes the consumer that is to be stopped. -/
theorem worker_next {s : System} (ho : s.Orderly) {k : Nat} (hk : s.pipeline.worker = some k)
    (m : Move) : (s.next m).pipeline.worker = some k ∨
      ∃ i, m = .act (.caller i) ∧ (s.caller i).tasks = [.takeWorker, .unlockLifecycle] := by
  match m with
  | .begin i call =>
    left
    simp only [next, System.begin]
    split <;> exact hk
  | .act (.caller i) =>
    cases ht : (s.caller i).tasks with
    | nil =>
      rw [next, step_caller_of_nil ht]
      exact .inl hk
    | cons t rest =>
      rcases Task.step_worker i s.pipeline t with rfl | hworker | ⟨rfl, -⟩
      · obtain ⟨e, he, hfits, -⟩ := ho.errand_of_task ht id (by simp)
        cases e <;> simp only [Errand.tasks, List.cons.injEq, reduceCtorEq, false_and] at he
        cases hk.symm.trans hfits.1
      · rw [next, step_caller_of_cons ht]
        exact .inl (hworker.trans hk)
      · obtain ⟨e, he, -⟩ := ho.errand_of_task ht id (by simp)
        cases e <;> simp only [Errand.tasks, List.cons.injEq, reduceCtorEq, false_and] at he
        exact .inr ⟨i, rfl, by rw [ht, ← he.2]⟩
  | .act (.consumer j) =>
    left
    simp only [next, step, Pipeline.stepConsumer]
    split
    · simpa using hk
    · exact hk
  | .act (.timer j) =>
    left
    simp only [next, step, Pipeline.expireConsumer]
    split <;> exact hk
  | .outside w => exact .inl hk

/-- A start that has found no consumer to be stopped can return, and has started one then. -/
theorem leads_to_launched {world : World} {i : Nat} {front : List Move} (after : List Move)
    (hcheck : ((run world front).caller i).tasks = [.checkStopped, .unlockLifecycle])
    (hnone : (run world front).pipeline.worker = none)
    (halone : ∀ call, Move.begin i call ∉ after) :
    ∃ actors : List Actor,
      (run world (front ++ .act (.caller i) :: after ++ actors.map .act)).caller i =
        ⟨[], some .started⟩ ∧
      Launches world i (front ++ [.act (.caller i)]) (after ++ actors.map .act) := by
  have hleads : Leads world (front ++ .act (.caller i) :: after) fun s =>
      s.caller i = ⟨[], some .started⟩ := by
    rcases launching_run after hcheck hnone halone with ⟨e, harming⟩ | ⟨hanswered, -⟩
    · exact leads_to_started harming
    · exact leads_to_returned hanswered
  obtain ⟨actors, hreturned⟩ := hleads
  refine ⟨actors, hreturned, ?_⟩
  have halone' : ∀ call, Move.begin i call ∉ after ++ actors.map .act := by simpa using halone
  rw [List.append_assoc, List.cons_append] at hreturned
  rcases launching_run _ hcheck hnone halone' with ⟨e, harming⟩ | ⟨-, hlaunches⟩
  · exact (e.tasks_ne_nil (harming.tasks.symm.trans (by rw [hreturned]))).elim
  · exact hlaunches

/-- What a run keeps to, as far as its last state and its next move. -/
structure KeepsLifecycle (world : World) (ms : List Move) : Prop where
  /-- At most one consumer has not ended. -/
  alone : ∀ (j k : Nat) (c d : Consumer), (run world ms).pipeline.consumers[j]? = some c →
    (run world ms).pipeline.consumers[k]? = some d → c.stage ≠ .ended → d.stage ≠ .ended → j = k
  /-- A start that has returned has looked, while it held the lifecycle lock, whether there is a
  consumer to be stopped. It was refused if there was one; if there was none, it has started one
  since, with all events open. -/
  answered : ∀ i before moves, ms = before ++ .begin i .start :: moves →
    ((run world before).caller i).tasks = [] → (∀ call, Move.begin i call ∉ moves) →
    ((run world ms).caller i).tasks = [] →
    ∃ waiting after, moves = waiting ++ .act (.caller i) :: after ∧
      let look := before ++ .begin i .start :: waiting
      let reply := ((run world ms).caller i).reply
      (run world look).pipeline.lifecycle = some i ∧
        ((run world look).caller i).tasks = [.checkStopped, .unlockLifecycle] ∧
        ((run world look).pipeline.worker.isSome → reply = some .alreadyRunning) ∧
        ((run world look).pipeline.worker = none →
          reply = some .started ∧ Launches world i (look ++ [.act (.caller i)]) after)
  /-- From the end of a consumer the event of its end is closed until a start opens it again
  to start the next one. -/
  closed : ∀ (k : Nat) (c : Consumer), (run world ms).pipeline.consumers[k]? = some c → c.stage = .ended →
    (run world ms).pipeline.doneEvent.live = none ∨ (run world ms).Reopened ∨
      k + 1 < (run world ms).pipeline.consumers.length
  /-- Who waits for the event of the end is a stop that has taken a consumer which has not
  ended, and the slot it waits on is the live one, which this consumer will close, or the one
  that the consumer has retired and is about to fire. The stop can go on until it returns. -/
  awaits : ∀ i c rest slot, ((run world ms).caller i).tasks = .onEvent .done c :: rest →
    c.Holds slot → (run world ms).pipeline.doneEvent.fired? slot = none →
    ∃ (k : Nat) (d : Consumer), rest = [.join k, .unlockLifecycle] ∧
      (run world ms).pipeline.consumers[k]? = some d ∧ d.stage ≠ .ended ∧
      ((run world ms).pipeline.doneEvent.live = some slot ∨
        ∃ call, d.stage = .finish call ∧ call.Fires slot) ∧
      Leads world ms fun s => (s.caller i).tasks = []
  /-- A start that has found no consumer to be stopped can go on, whatever others have done
  since, until it has returned with success and has started one. -/
  starts : ∀ i before moves, ms = before ++ .act (.caller i) :: moves →
    ((run world before).caller i).tasks = [.checkStopped, .unlockLifecycle] →
    (run world before).pipeline.worker = none → (∀ call, Move.begin i call ∉ moves) →
    ∃ actors : List Actor, (run world (ms ++ actors.map .act)).caller i = ⟨[], some .started⟩ ∧
      Launches world i (before ++ [.act (.caller i)]) (moves ++ actors.map .act)
  /-- Whoever comes to start a consumer does so with its next step. -/
  launches : ∀ i rest, ((run world ms).caller i).tasks = .spawn :: rest →
    (run world ms).Launch (.act (.caller i))
  /-- While there is a consumer to be stopped, the event for stopping is open; and there is one
  until a stop takes it. -/
  running : ∀ k, (run world ms).pipeline.worker = some k →
    (run world ms).pipeline.stopEvent.live.isSome ∧
      ∀ m, (run world (ms ++ [m])).pipeline.worker = some k ∨
        ∃ i, m = .act (.caller i) ∧
          ((run world ms).caller i).tasks = [.takeWorker, .unlockLifecycle]

/-- However starts, stops and consumers go on in turn, every run keeps to the lifecycle. -/
theorem every_run_keeps_lifecycle (world : World) (ms : List Move) : KeepsLifecycle world ms where
  alone j k c d hc hd := (orderly_run world ms).index_eq hc hd
  answered i before moves hms hidle halone hreturned := by
    subst hms
    exact answered_run hidle halone hreturned
  closed k c hc hs := by
    obtain ⟨hlt, -⟩ := List.getElem?_eq_some_iff.1 hc
    rcases Nat.lt_or_ge (k + 1) (run world ms).pipeline.consumers.length with hk | hk
    · exact .inr (.inr hk)
    · rw [← or_assoc]
      exact .inl (endClosed_run world ms k c hc (by omega) (by rw [hs]; trivial))
  awaits i c rest slot ht hholds hfired := by
    obtain ⟨k, d, rfl, hd, hs, hslot⟩ := awaits_run ht hholds hfired
    exact ⟨k, d, rfl, hd, hs, hslot, leads_past_awaiting (.inl ⟨.awaitingDone k c, rfl, ht⟩)⟩
  starts i before moves hms hcheck hnone halone := by
    subst hms
    exact leads_to_launched moves hcheck hnone halone
  launches i rest ht := by
    have ho := orderly_run world ms
    obtain ⟨e, harming⟩ := arming_run world ms i (by simp [ht])
    have htasks := ht.symm.trans harming.tasks
    cases e <;> simp only [Errand.tasks, List.cons.injEq, reduceCtorEq, false_and] at htasks
    exact harming.launch ho
  running k hk := by
    have ho := orderly_run world ms
    refine ⟨ho.live_of_worker hk, fun m => ?_⟩
    rw [run_concat]
    exact worker_next ho hk m

/-- The sink panics at the first line, so that the consumer ends. A start is refused as long as
it has not been stopped, and another consumer is started after that. -/
example :
    let world := World.calm ⟨[], []⟩ fun _ => 0
    let acts (n : Nat) (a : Actor) : List Move := List.replicate n (.act a)
    let ended : List Move :=
      .begin 0 (.setSink ⟨.standardOutput, false, fun _ => true⟩) :: acts 1 (.caller 0) ++
        .begin 0 .start :: acts 14 (.caller 0) ++
        .begin 1 (.log ⟨.info, "t", [], ⟨"f", 1⟩⟩) :: acts 12 (.caller 1) ++ acts 30 (.consumer 0)
    let refused := ended ++ .begin 2 .start :: acts 3 (.caller 2)
    let stopped := refused ++ .begin 3 .stop :: acts 20 (.caller 3)
    let restarted := stopped ++ .begin 2 .start :: acts 14 (.caller 2)
    (run world ended).pipeline.doneEvent.live = none ∧
      ((run world refused).caller 2).reply = some .alreadyRunning ∧
      ((run world stopped).caller 3).tasks.isEmpty ∧
      ((run world restarted).caller 2).reply = some .started ∧
      (run world restarted).pipeline.worker = some 1 := by
  decide +kernel

end System

end LogPipeline
