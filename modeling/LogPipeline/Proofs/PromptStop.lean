import LogPipeline.Proofs.FinalFlush
import LogPipeline.Proofs.Slots

/-!
# The dump event while a consumer is stopped

A stop closes the dump event, so that the consumer does not wait out the interval. A
broadcast after the close opens the event again, and the consumer may then wait on a
slot that nobody is about to fire (`broadcast_reopens_dump_event`). As long as the
consumer has not ended, nothing else opens the event: it stays closed, and the
consumer is not held up, exactly if nobody broadcasts
(`dump_event_stays_closed_iff`).
-/

namespace LogPipeline

open Sync

namespace System

/-- The dump event is reopened only when all consumers have ended. -/
theorem Orderly.allEnded_of_reopen {s : System} (h : s.Orderly) {j : Nat} {a : Acquisition}
    {rest : List Task} (ht : (s.caller j).tasks = .onEvent .dump (.enter .reopen a) :: rest) :
    s.pipeline.AllEnded := by
  have hord : ¬(Task.onEvent .dump (.enter .reopen a)).Ordinary := by
    rintro ⟨-, hserves, -⟩
    cases hserves
  obtain ⟨e, he, hfits, -⟩ := h.errand_of_task ht hord (by simp)
  cases e with
  | rearmingDump c => exact hfits.2.1
  | closingDump k c =>
    simp only [Errand.tasks, List.cons.injEq, Task.onEvent.injEq] at he
    obtain ⟨⟨-, rfl⟩, -⟩ := he
    cases hfits.2.2.1
  | _ => simp [Errand.tasks] at he

/-- While a consumer has not ended, a closed dump event stays closed unless somebody
broadcasts. -/
theorem closed_next_iff {s : System} (ho : s.Orderly)
    (hsound : ∀ c ∈ s.pipeline.consumers, c.Sound)
    (hrunning : ∃ c ∈ s.pipeline.consumers, c.stage ≠ .ended)
    (hclosed : s.pipeline.dumpEvent.live = none) (m : Move) :
    (s.next m).pipeline.dumpEvent.live = none ↔ ¬s.Broadcasts m := by
  constructor
  · rintro hlive ⟨j, a, rest, rfl, ht, hfree⟩
    rw [(next_onDump ht).1] at hlive
    rcases EventCall.step_enter s.pipeline.dumpEvent .broadcast a with ⟨-, he, -⟩ | ⟨hheld, -⟩
    · rw [he] at hlive
      cases hlive
    · cases hfree.symm.trans hheld
  · intro hnone
    rcases next_dump_cases hsound m with ⟨j, c, rest, rfl, ht⟩ | ⟨hagrees, -⟩
    · rw [(next_onDump ht).1]
      rcases EventCall.step_live s.pipeline.dumpEvent c with ⟨hlive, -⟩ | ⟨op, a, rfl, hlive, -⟩
      · exact hlive.trans hclosed
      · rcases EventCall.step_enter s.pipeline.dumpEvent op a with ⟨hfree, -⟩ | ⟨-, he, -⟩
        · rw [hlive]
          cases op with
          | broadcast => exact (hnone ⟨j, a, rest, rfl, ht, hfree⟩).elim
          | close => rfl
          | reopen =>
            obtain ⟨c, hc, hs⟩ := hrunning
            exact (hs (ho.allEnded_of_reopen ht c hc)).elim
          | _ => exact hclosed
        · rw [he]
          exact hclosed
    · exact hagrees.live.trans hclosed

/-- A stop closes the dump event with a move, and after some more moves the consumer
it stops has not ended. -/
structure ClosingRun (world : World) (i k : Nat) (before after : List Move) : Prop where
  closing : ∃ a rest, ((run world before).caller i).tasks =
    .onEvent .dump (.enter .close a) :: rest
  free : (run world before).pipeline.dumpEvent.lock = .free
  started : k < (run world before).pipeline.consumers.length
  running : ∃ c, (run world (before ++ [.act (.caller i)] ++ after)).pipeline.consumers[k]? =
    some c ∧ c.stage ≠ .ended

theorem ended_run {world : World} {front : List Move} {k : Nat}
    (h : ∃ c, (run world front).pipeline.consumers[k]? = some c ∧ c.stage = .ended)
    (after : List Move) :
    ∃ c, (run world (front ++ after)).pipeline.consumers[k]? = some c ∧ c.stage = .ended := by
  induction after using List.reverseRecOn with
  | nil => rwa [List.append_nil]
  | append_singleton after m ih =>
    rw [← List.append_assoc, run_concat]
    exact ended_next m ih

theorem ClosingRun.running_of_prefix {world : World} {i k : Nat} {before after pre : List Move}
    (h : ClosingRun world i k before after) (hpre : pre <+: after) :
    ∃ c ∈ (run world (before ++ [.act (.caller i)] ++ pre)).pipeline.consumers,
      c.stage ≠ .ended := by
  obtain ⟨later, rfl⟩ := hpre
  obtain ⟨c, hc⟩ := consumer_run h.started ([.act (.caller i)] ++ pre)
  rw [← List.append_assoc] at hc
  refine ⟨c, List.mem_of_getElem? hc, fun hs => ?_⟩
  obtain ⟨d, hd, hended⟩ := ended_run ⟨c, hc, hs⟩ later
  obtain ⟨d', hd', hrunning⟩ := h.running
  rw [List.append_assoc] at hd
  cases hd.symm.trans hd'
  exact hrunning hended

theorem ClosingRun.closed {world : World} {i k : Nat} {before after : List Move}
    (h : ClosingRun world i k before after) :
    (run world (before ++ [.act (.caller i)])).pipeline.dumpEvent.live = none := by
  obtain ⟨a, rest, ht⟩ := h.closing
  rw [run_concat, (next_onDump ht).1]
  rcases EventCall.step_enter (run world before).pipeline.dumpEvent .close a with
    ⟨-, he, -⟩ | ⟨hheld, -⟩
  · rw [he]
    rfl
  · cases h.free.symm.trans hheld

/-- After a stop has closed the dump event, the event stays closed as long as the
consumer has not ended exactly if nobody broadcasts on it; and then a slot that the
consumer still waits on is about to be fired. -/
theorem dump_event_stays_closed_iff {world : World} {i k : Nat} {before after : List Move}
    (h : ClosingRun world i k before after) :
    let front := before ++ [.act (.caller i)]
    ((∀ pre, pre <+: after → (run world (front ++ pre)).pipeline.dumpEvent.live = none) ↔
        ∀ pre m, pre ++ [m] <+: after → ¬(run world (front ++ pre)).Broadcasts m) ∧
      ((∀ pre m, pre ++ [m] <+: after → ¬(run world (front ++ pre)).Broadcasts m) →
        ∀ c ∈ (run world (front ++ after)).pipeline.consumers, ∀ slot, c.waitsOn slot = true →
          (run world (front ++ after)).pipeline.dumpEvent.fired? slot = none →
          (run world (front ++ after)).Firing slot) := by
  intro front
  -- one move, at a point of the run where the event is closed
  have hnext : ∀ pre m, pre ++ [m] <+: after →
      (run world (front ++ pre)).pipeline.dumpEvent.live = none →
      ((run world (front ++ (pre ++ [m]))).pipeline.dumpEvent.live = none ↔
        ¬(run world (front ++ pre)).Broadcasts m) := by
    intro pre m hpre hclosed
    rw [← List.append_assoc, run_concat]
    exact closed_next_iff (orderly_run world _) (sound_run world _)
      (h.running_of_prefix ((List.prefix_append _ _).trans hpre)) hclosed m
  have hstays : (∀ pre m, pre ++ [m] <+: after → ¬(run world (front ++ pre)).Broadcasts m) →
      ∀ pre, pre <+: after → (run world (front ++ pre)).pipeline.dumpEvent.live = none := by
    intro hnone pre hpre
    induction pre using List.reverseRecOn with
    | nil =>
      rw [List.append_nil]
      exact h.closed
    | append_singleton pre m ih =>
      exact (hnext pre m hpre (ih ((List.prefix_append _ _).trans hpre))).2 (hnone pre m hpre)
  refine ⟨⟨fun hclosed pre m hpre => ?_, hstays⟩, fun hnone c hc slot hs hfired => ?_⟩
  · exact (hnext pre m hpre (hclosed pre ((List.prefix_append _ _).trans hpre))).1
      (hclosed _ hpre)
  · -- no slot is live, so one that has not fired is about to be
    have hclosed := hstays hnone after (List.prefix_refl _)
    refine (live_or_firing_of_waitsOn hc hs hfired).resolve_left ?_
    rw [hclosed]
    simp

/-- Entries are dumped, at the latest after an hour; the consumer is about to wait, and
a stop about to close the dump event. -/
def closingMoves : List Move :=
  Move.begin 0 (.startDump ⟨"app.log"⟩ 33554432 1 3600000) ::
    List.replicate 8 (Move.act (.caller 0)) ++
    Move.begin 1 .start :: List.replicate 20 (Move.act (.caller 1)) ++
    List.replicate 2 (Move.act (.consumer 0)) ++
    Move.begin 2 .stop :: List.replicate 5 (Move.act (.caller 2))

/-- Nobody broadcasts, and the consumer finds the event closed. -/
theorem dump_event_stays_closed :
    let world := World.calm ⟨[], []⟩ fun _ => 0
    let after := List.replicate 2 (Move.act (.caller 2)) ++
      List.replicate 4 (Move.act (.consumer 0))
    ClosingRun world 2 0 closingMoves after ∧
      (run world (closingMoves ++ [.act (.caller 2)] ++ after)).pipeline.dumpEvent.live = none := by
  intro world after
  have hclosing : ((run world closingMoves).caller 2).isEntering .close = true := by
    decide +kernel
  have hstages : (run world (closingMoves ++ [.act (.caller 2)] ++ after)).pipeline.consumers.map
      (fun c => c.stage.ctorIdx) = [ConsumerStage.ctorIdx (.checkStop (.start .isClosed))] := by
    decide +kernel
  obtain ⟨c, hc, hs⟩ := List.map_eq_singleton_iff.1 hstages
  have hrun : ClosingRun world 2 0 closingMoves after := by
    refine ⟨Caller.isEntering_iff.1 hclosing, by decide +kernel, by decide +kernel, c,
      by rw [hc]; rfl, fun hended => ?_⟩
    rw [hended] at hs
    cases hs
  refine ⟨hrun, ((dump_event_stays_closed_iff hrun).1.2 fun pre m hpre => ?_) after
    (List.prefix_refl _)⟩
  rintro ⟨j, a, rest, rfl, ht, -⟩
  -- the caller that stops the consumer is all along at its close
  exact quiet_of_caller (j := 2) (by simp [after]) (by decide +kernel) hpre a rest ht

/-- A stop has closed both events when an entry reaches the threshold: the broadcast
opens the dump event again, and the consumer waits for the end of the interval, with
the entry queued, while the stop waits for the consumer. -/
theorem broadcast_reopens_dump_event :
    let world := World.calm ⟨[], []⟩ fun _ => 0
    let closed := closingMoves ++ List.replicate 7 (Move.act (.caller 2))
    let waiting := closed ++ Move.begin 0 (.log ⟨.info, "t", [], ⟨"f", 1⟩⟩) ::
      List.replicate 12 (Move.act (.caller 0)) ++ List.replicate 4 (Move.act (.consumer 0))
    let p := (run world waiting).pipeline
    (run world closed).pipeline.stopEvent.live = none ∧
      (run world closed).pipeline.dumpEvent.live = none ∧
      ((run world closed).caller 2).tasks ≠ [] ∧
      p.dumpEvent.live = some 1 ∧ p.dumpEvent.fired? 1 = none ∧ p.dumpEvent.liveWaiters = 1 ∧
      p.consumers.map (fun c => c.isResting p) = [true] ∧ p.buffer.incoming.length = 1 ∧
      ((run world waiting).caller 0).tasks = [] ∧
      ((run world waiting).caller 2).isResting p = true ∧
      ((run world waiting).caller 2).tasks ≠ [] := by
  refine ⟨by decide +kernel, by decide +kernel, List.isEmpty_eq_false_iff.1 (by decide +kernel),
    by decide +kernel, by decide +kernel, by decide +kernel, by decide +kernel, by decide +kernel,
    List.isEmpty_iff.1 (by decide +kernel), by decide +kernel,
    List.isEmpty_eq_false_iff.1 (by decide +kernel)⟩

end System

end LogPipeline
