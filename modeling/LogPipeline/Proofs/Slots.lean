import LogPipeline.Proofs.Actors
import Mathlib.Data.List.Infix

/-!
# Who fires a slot of the dump event

On the dump event consumers only wait, so that the call that has retired a slot is one of
a caller (`Firing`). A consumer that waits on a slot that has not fired thus waits on the
live one, or on one that a caller is about to fire (`live_or_firing_of_waitsOn`).
-/

namespace LogPipeline

open Sync

/-- Whether a caller tries to take the lock for an operation on the dump event. -/
def Caller.isEntering (op : EventOp) (c : Caller) : Bool :=
  match c.tasks with
  | .onEvent .dump (.enter op' _) :: _ => op' = op
  | _ => false

theorem Caller.isEntering_iff {op : EventOp} {c : Caller} :
    c.isEntering op = true ↔ ∃ a rest, c.tasks = .onEvent .dump (.enter op a) :: rest := by
  unfold isEntering
  constructor
  · intro h
    split at h
    · next op' a rest ht =>
      obtain rfl : op' = op := of_decide_eq_true h
      exact ⟨a, rest, ht⟩
    · cases h
  · rintro ⟨a, rest, ht⟩
    simp [ht]

/-- Whether a consumer waits on a slot of the dump event. -/
def Consumer.waitsOn (c : Consumer) (i : SlotId) : Bool :=
  match c.stage with
  | .awaitDump (.waiting j _) => j = i
  | _ => false

namespace System

/-- A caller has retired a slot of the dump event, and is about to fire it. -/
def Firing (s : System) (i : SlotId) : Prop :=
  ∃ j c rest, (s.caller j).tasks = .onEvent .dump c :: rest ∧ c.Fires i

theorem next_onDump {s : System} {j : Nat} {c : EventCall} {rest : List Task}
    (h : (s.caller j).tasks = .onEvent .dump c :: rest) :
    (s.next (.act (.caller j))).pipeline.dumpEvent = (c.step s.pipeline.dumpEvent).1 ∧
      (∀ k, k ≠ j → (s.next (.act (.caller j))).caller k = s.caller k) ∧
      ((∃ reply, (c.step s.pipeline.dumpEvent).2 = .finished reply) ∨
        ((s.next (.act (.caller j))).caller j).tasks =
          .onEvent .dump (c.step s.pipeline.dumpEvent).2 :: rest) := by
  obtain ⟨hp, hnext⟩ := Task.step_onEvent j s.pipeline .dump c
  rw [next, step_caller_of_cons h]
  refine ⟨?_, fun k hk => setCaller_caller_of_ne _ _ hk, ?_⟩
  · rw [afterTask, setCaller_pipeline, hp]
    rfl
  · rcases hnext with ⟨-, hreply⟩ | hnext
    · exact .inl hreply
    · exact .inr (by simp [afterTask, hnext, Pipeline.event])

/-- A move is a step of a call on the dump event, or it leaves the event, and all who
are at such a call. -/
theorem next_dump_cases {s : System} (hsound : ∀ c ∈ s.pipeline.consumers, c.Sound) (m : Move) :
    (∃ j c rest, m = .act (.caller j) ∧ (s.caller j).tasks = .onEvent .dump c :: rest) ∨
      s.pipeline.dumpEvent.Agrees (s.next m).pipeline.dumpEvent ∧
        ∀ j c rest, (s.caller j).tasks = .onEvent .dump c :: rest →
          (s.next m).caller j = s.caller j := by
  by_cases hdump : ∃ j c rest, m = .act (.caller j) ∧ (s.caller j).tasks = .onEvent .dump c :: rest
  · exact .inl hdump
  · refine .inr ⟨?_, fun j c rest ht => next_caller_of_ne (by simp [ht]) ?_⟩
    · rcases s.event_next m .dump with he | ⟨a, call, rfl, hcall⟩
      · rw [show (s.next m).pipeline.dumpEvent = s.pipeline.dumpEvent from he]
        exact .refl _
      · cases a with
        | caller j =>
          obtain ⟨rest, ht⟩ := eventCall?_caller.1 hcall
          exact (hdump ⟨j, call, rest, rfl, ht⟩).elim
        | consumer j =>
          obtain ⟨c, hc, hstage⟩ := eventCall?_consumer.1 hcall
          obtain ⟨op, hop, hserves⟩ := (hsound c (List.mem_of_getElem? hc)).serves hstage
          obtain rfl : op = .wait .timed := by simpa [EventName.consumerOps] using hop
          have he : (s.next (.act (.consumer j))).pipeline.dumpEvent =
            (call.step s.pipeline.dumpEvent).1 := (next_onEvent hcall).1
          rw [he]
          exact hserves.agrees_step _
        | timer j => cases hcall
    · rintro rfl
      exact hdump ⟨j, c, rest, rfl, ht⟩

/-- A caller broadcasts on the dump event, and has the lock. -/
def Broadcasts (s : System) (m : Move) : Prop :=
  ∃ j a rest, m = .act (.caller j) ∧
    (s.caller j).tasks = .onEvent .dump (.enter .broadcast a) :: rest ∧
    s.pipeline.dumpEvent.lock = .free

/-- If only one caller takes steps, and never at a broadcast, nobody broadcasts. -/
theorem quiet_of_caller {world : World} {front after : List Move} {j : Nat}
    (honly : ∀ k, .act (.caller k) ∈ after → k = j)
    (hquiet : ∀ pre ∈ after.inits,
      ((run world (front ++ pre)).caller j).isEntering .broadcast = false)
    {pre : List Move} {k : Nat} (hpre : pre ++ [.act (.caller k)] <+: after) (a : Acquisition)
    (rest : List Task) : ((run world (front ++ pre)).caller k).tasks ≠
      .onEvent .dump (.enter .broadcast a) :: rest := by
  intro ht
  obtain rfl : k = j := honly k (hpre.subset (by simp))
  have hpre' := hquiet pre ((List.mem_inits _ _).2 ((List.prefix_append _ _).trans hpre))
  rw [Caller.isEntering_iff.2 ⟨a, rest, ht⟩] at hpre'
  cases hpre'

theorem size_next {s : System} (hsound : ∀ c ∈ s.pipeline.consumers, c.Sound) (m : Move) :
    s.pipeline.dumpEvent.slots.size ≤ (s.next m).pipeline.dumpEvent.slots.size := by
  rcases next_dump_cases hsound m with ⟨j, c, rest, rfl, ht⟩ | ⟨hagrees, -⟩
  · rw [(next_onDump ht).1]
    exact EventCall.size_step _ c
  · exact Nat.le_of_eq hagrees.size.symm

theorem unfired_of_next {s : System} (hsound : ∀ c ∈ s.pipeline.consumers, c.Sound) {i : SlotId}
    (hlt : i < s.pipeline.dumpEvent.slots.size) {m : Move}
    (h : (s.next m).pipeline.dumpEvent.fired? i = none) :
    s.pipeline.dumpEvent.fired? i = none := by
  rcases next_dump_cases hsound m with ⟨j, c, rest, rfl, ht⟩ | ⟨hagrees, -⟩
  · rw [(next_onDump ht).1] at h
    exact EventCall.unfired_of_step hlt h
  · rwa [hagrees.fired] at h

/-- The caller that retires the live slot goes on to fire it. -/
theorem live_or_firing_next {s : System} (hsound : ∀ c ∈ s.pipeline.consumers, c.Sound)
    {i : SlotId} (h : s.pipeline.dumpEvent.live = some i) (m : Move) :
    (s.next m).pipeline.dumpEvent.live = some i ∨ (s.next m).Firing i := by
  rcases next_dump_cases hsound m with ⟨j, c, rest, rfl, ht⟩ | ⟨hagrees, -⟩
  · obtain ⟨he, -, hself⟩ := next_onDump ht
    rw [he]
    refine (EventCall.live_or_fires h).imp_right fun hfires => ?_
    rcases hself with ⟨reply, hreply⟩ | htasks
    · rw [hreply] at hfires
      exact hfires.elim
    · exact ⟨j, _, rest, htasks, hfires⟩
  · exact .inl (hagrees.live.trans h)

/-- A caller that has retired a slot fires it. -/
theorem Firing.next {s : System} {i : SlotId} (h : s.Firing i)
    (hsound : ∀ c ∈ s.pipeline.consumers, c.Sound)
    (hlt : i < s.pipeline.dumpEvent.slots.size) {m : Move}
    (hnone : (s.next m).pipeline.dumpEvent.fired? i = none) : (s.next m).Firing i := by
  obtain ⟨k, d, rest', hk, hd⟩ := h
  rcases next_dump_cases hsound m with ⟨j, c, rest, rfl, ht⟩ | ⟨-, hsame⟩
  · obtain ⟨he, hothers, hself⟩ := next_onDump ht
    by_cases hkj : k = j
    · subst hkj
      cases ht.symm.trans hk
      rw [he] at hnone
      have hfires := (hd.step hlt).resolve_right (not_not.2 hnone)
      rcases hself with ⟨reply, hreply⟩ | htasks
      · rw [hreply] at hfires
        exact hfires.elim
      · exact ⟨k, _, _, htasks, hfires⟩
    · exact ⟨k, d, rest', by rw [hothers k hkj, hk], hd⟩
  · exact ⟨k, d, rest', by rw [hsame k d rest' hk, hk], hd⟩

/-- Who is about to fire a slot of the dump event is a caller. -/
theorem firing_of_fires {s : System} (hsound : ∀ c ∈ s.pipeline.consumers, c.Sound)
    {call : EventCall} (hcall : s.Calls .dump call) {i : SlotId} (hfires : call.Fires i) :
    s.Firing i := by
  obtain ⟨a, ha⟩ := hcall
  cases a with
  | caller j =>
    obtain ⟨rest, ht⟩ := eventCall?_caller.1 ha
    exact ⟨j, call, rest, ht, hfires⟩
  | consumer j =>
    obtain ⟨c, hc, hstage⟩ := eventCall?_consumer.1 ha
    obtain ⟨op, hop, hserves⟩ := (hsound c (List.mem_of_getElem? hc)).serves hstage
    rcases hserves.of_fires hfires with rfl | rfl <;> simp [EventName.consumerOps] at hop
  | timer j => cases ha

/-- A consumer waits on a slot that is live or about to be fired, or has fired. -/
theorem live_or_firing_of_waitsOn {world : World} {ms : List Move} {c : Consumer}
    (hc : c ∈ (run world ms).pipeline.consumers) {i : SlotId} (hwaits : c.waitsOn i = true)
    (hnone : (run world ms).pipeline.dumpEvent.fired? i = none) :
    (run world ms).pipeline.dumpEvent.live = some i ∨ (run world ms).Firing i := by
  have hslots := slots_run world ms .dump
  obtain ⟨j, hj⟩ := List.getElem?_of_mem hc
  unfold Consumer.waitsOn at hwaits
  split at hwaits
  · next k mode hs =>
    obtain rfl : k = i := of_decide_eq_true hwaits
    have hcall : (run world ms).Calls .dump (.waiting k mode) :=
      ⟨.consumer j, eventCall?_consumer.2 ⟨c, hj, by rw [hs]; rfl⟩⟩
    refine (hslots.unfired k (hslots.known _ k hcall (.inl rfl)) hnone).imp_right ?_
    rintro ⟨call, hcall, hfires⟩
    exact firing_of_fires (sound_run world ms) hcall hfires
  · cases hwaits

end System

end LogPipeline
