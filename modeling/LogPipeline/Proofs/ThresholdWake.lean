import LogPipeline.Proofs.Ledger.Run
import LogPipeline.Proofs.Slots

/-!
# Waking a consumer at the threshold

While entries are dumped, a caller that has made the queue as long as the threshold
broadcasts on the dump event (`Task.Signals.step`). The broadcast wakes those who wait
on the slot that is live then; a consumer that comes to wait later does not hear of
it, and sleeps over a full queue (`sleeps_over_full_queue`). What holds of every run
is that no slot outlives a broadcast: entries that were queued since the slot became
live are fewer than the threshold, or a caller is on its way to fire the slot, unless
a broadcast has been given up because the event was locked (`threshold_wakes`).
-/

namespace LogPipeline

open Sync

namespace Task

/-- A task on the way to the broadcast for a queue that has had at least so many
entries, or at the broadcast. -/
def Signals (t : Nat) : Task → Prop
  | .onBuffer (.publish (.queued n)) _ | .onBuffer (.leave (.queued n)) _
  | .checkDumping n | .checkThreshold n => t ≤ n
  | .onEvent .dump (.enter .broadcast _) => True
  | _ => False

theorem Signals.mono {t t' : Nat} {task : Task} (h : task.Signals t) (hle : t' ≤ t) :
    task.Signals t' := by
  unfold Signals at h ⊢
  split at h <;> first | exact hle.trans h | exact h

/-- While entries are dumped, a queue as long as the threshold leads to a broadcast. -/
theorem Signals.next {t : Nat} {task : Task} (h : task.Signals t) (i : Nat) {p : Pipeline}
    (hdumping : p.dumping = true) (hthreshold : p.threshold.toNat = t) :
    (∃ task', (task.step i p).next = [task'] ∧ task'.Signals t) ∨
      ∃ a, task = .onEvent .dump (.enter .broadcast a) := by
  unfold Signals at h
  split at h
  · exact .inl ⟨_, rfl, h⟩
  · exact .inl ⟨_, rfl, h⟩
  · next n =>
    exact .inl ⟨.checkThreshold n, if_pos hdumping, h⟩
  · next n =>
    exact .inl ⟨.onEvent .dump (.start .broadcast), if_pos (hthreshold.trans_le h), trivial⟩
  · exact .inr ⟨_, rfl⟩
  · exact h.elim

end Task

/-- A call whose entries have been accepted goes on with the length of the queue. -/
theorem BufferCall.step_of_accepted {b : RecordBuffer} {c : BufferCall}
    (h : (c.ledger b).accepted ≠ []) :
    (c.step b).2 = .publish (.queued (c.step b).1.incoming.length) := by
  cases c with
  | enter op a =>
    cases op with
    | append entries =>
      cases hattempt : b.lock.attempt a with
      | mk outcome lock =>
        cases outcome with
        | acquired => simp [BufferCall.step, hattempt, RecordBuffer.perform]
        | _ => simp [BufferCall.ledger, hattempt, Ledger.empty] at h
    | _ => exact (h rfl).elim
  | _ => exact (h rfl).elim

/-- A caller whose entries have been accepted is on the way to a broadcast. -/
theorem Task.signals_of_accepted {task : Task} (i : Nat) {p : Pipeline}
    (h : (task.ledger p).accepted ≠ []) :
    ∃ task', (task.step i p).next = [task'] ∧
      task'.Signals (task.step i p).pipeline.buffer.incoming.length := by
  cases task with
  | onBuffer c stake =>
    have hc := BufferCall.step_of_accepted h
    simp only [step, hc, BufferCall.reply?]
    exact ⟨_, rfl, Nat.le_refl _⟩
  | _ => exact (h rfl).elim

theorem BufferCall.Fetches.step_incoming {c : BufferCall} (h : c.Fetches) (b : RecordBuffer) :
    (c.step b).1.incoming = b.incoming ∨ (c.step b).1.incoming = [] := by
  cases c with
  | enter op a =>
    cases op with
    | exchange entries room =>
      obtain ⟨rfl, ha⟩ := h
      rcases SpinLock.attempt_of_budget_zero ha b.lock with hacq | hagain
      · exact .inr (by simp [BufferCall.step, hacq, RecordBuffer.perform])
      · exact .inl (by simp [BufferCall.step, hagain])
    | _ => exact h.elim
  | _ => exact .inl rfl

theorem Consumer.Sound.step_incoming {c : Consumer} (h : c.Sound) (p : Pipeline) :
    (c.step p).1.buffer.incoming = p.buffer.incoming ∨ (c.step p).1.buffer.incoming = [] := by
  unfold Sound at h
  cases hs : c.stage with
  | takeQueue call =>
    simp only [hs] at h
    simpa [Consumer.step, hs] using h.2.step_incoming p.buffer
  | print sink rest =>
    cases rest with
    | nil => exact .inl (by simp [Consumer.step, hs])
    | cons e rest =>
      left
      simp only [Consumer.step, hs]
      split <;> rfl
  | flush sink =>
    left
    simp only [Consumer.step, hs]
    split <;> rfl
  | _ => exact .inl (by simp [Consumer.step, hs, dumpAll, Pipeline.addDropped])

namespace System

/-- A caller has made the queue at least so long, and has not yet broadcast. -/
def Signalling (s : System) (t : Nat) : Prop :=
  ∃ j task rest, (s.caller j).tasks = task :: rest ∧ task.Signals t

/-- A caller gives its broadcast on the dump event up, because the event is locked. -/
def Abandons (s : System) (m : Move) : Prop :=
  ∃ j a rest, m = .act (.caller j) ∧
    (s.caller j).tasks = .onEvent .dump (.enter .broadcast a) :: rest ∧
    ((EventCall.enter .broadcast a).step s.pipeline.dumpEvent).2 = .finished (.failed .lockBusy)

theorem Broadcasts.live_next {s : System} {m : Move} (h : s.Broadcasts m) :
    (s.next m).pipeline.dumpEvent.live = some s.pipeline.dumpEvent.slots.size := by
  obtain ⟨j, a, rest, rfl, ht, hfree⟩ := h
  rw [(next_onDump ht).1]
  rcases EventCall.step_enter s.pipeline.dumpEvent .broadcast a with ⟨-, he, -⟩ | ⟨hheld, -⟩
  · rw [he]
    rfl
  · cases hfree.symm.trans hheld

/-- A caller on the way to a broadcast goes on, until it broadcasts or gives up. -/
theorem Signalling.next {s : System} {t : Nat} (h : s.Signalling t)
    (hdumping : s.pipeline.dumping = true) (hthreshold : s.pipeline.threshold.toNat = t)
    (m : Move) : (s.next m).Signalling t ∨ s.Broadcasts m ∨ s.Abandons m := by
  obtain ⟨j, task, rest, ht, hsignals⟩ := h
  by_cases hm : m = .act (.caller j)
  · subst hm
    rcases hsignals.next j hdumping hthreshold with ⟨task', hnext, hsignals'⟩ | ⟨a, rfl⟩
    · refine .inl ⟨j, task', rest, ?_, hsignals'⟩
      simp [System.next, step_caller_of_cons ht, afterTask, hnext]
    · obtain ⟨-, -, hself⟩ := next_onDump ht
      rcases EventCall.step_enter s.pipeline.dumpEvent .broadcast a with
        ⟨hfree, -⟩ | ⟨-, -, hrefused | ⟨a', hagain⟩⟩
      · exact .inr (.inl ⟨j, a, rest, rfl, ht, hfree⟩)
      · exact .inr (.inr ⟨j, a, rest, rfl, ht, hrefused⟩)
      · rw [hagain] at hself
        rcases hself with ⟨reply, hreply⟩ | htasks
        · cases hreply
        · exact .inl ⟨j, _, rest, htasks, trivial⟩
  · exact .inl ⟨j, task, rest, by rw [next_caller_of_ne (by simp [ht]) hm, ht], hsignals⟩

/-- A move by which entries are accepted puts a caller on the way to a broadcast; any
other leaves the queue, or empties it. -/
theorem incoming_next {s : System} (ho : s.Orderly)
    (hsound : ∀ c ∈ s.pipeline.consumers, c.Sound) (m : Move) :
    (s.next m).Signalling (s.next m).pipeline.buffer.incoming.length ∨
      (s.ledgerOf m).accepted = [] ∧
        ((s.next m).pipeline.buffer.incoming = s.pipeline.buffer.incoming ∨
          (s.next m).pipeline.buffer.incoming = []) := by
  apply next_ledger_cases (P := fun s' l => s'.Signalling s'.pipeline.buffer.incoming.length ∨
    l.accepted = [] ∧ (s'.pipeline.buffer.incoming = s.pipeline.buffer.incoming ∨
      s'.pipeline.buffer.incoming = []))
  case begin =>
    intro i call _ _
    exact .inr ⟨(Call.sum_inFlight call).2.2.1, .inl rfl⟩
  case task =>
    intro i t rest ht
    by_cases haccepted : (t.ledger s.pipeline).accepted = []
    · refine .inr ⟨haccepted, .inl ?_⟩
      rw [afterTask, setCaller_pipeline, Task.step_incoming (ho.posts ht), haccepted,
        List.append_nil]
    · obtain ⟨t', hnext, hsignals⟩ := Task.signals_of_accepted i haccepted
      exact .inl ⟨i, t', rest, by simp [afterTask, hnext], hsignals⟩
  case consumer =>
    intro j c hc
    exact .inr ⟨(c.ledger_counts s.pipeline).2.1,
      (hsound c (List.mem_of_getElem? hc)).step_incoming s.pipeline⟩
  all_goals
    intros
    exact .inr ⟨rfl, .inl rfl⟩

/-- If a slot has not fired, a caller is about to fire it; or it is live, and the queue
is short of the threshold, or nothing has been accepted lately, or a caller is on the
way to a broadcast. -/
def Alert (s : System) (i : SlotId) (t : Nat) (lately : List Entry) : Prop :=
  s.pipeline.dumpEvent.fired? i = none → s.Firing i ∨
    s.pipeline.dumpEvent.live = some i ∧
      (s.pipeline.buffer.incoming.length < t ∨ lately = [] ∨ s.Signalling t)

theorem alert_next {s : System} {i : SlotId} {t : Nat} {lately : List Entry}
    (h : s.Alert i t lately) (ho : s.Orderly) (hsound : ∀ c ∈ s.pipeline.consumers, c.Sound)
    (hlt : i < s.pipeline.dumpEvent.slots.size) (ht : 1 ≤ t)
    (hdumping : s.pipeline.dumping = true) (hthreshold : s.pipeline.threshold.toNat = t) {m : Move}
    (hheard : ¬s.Abandons m) : (s.next m).Alert i t (lately ++ (s.ledgerOf m).accepted) := by
  intro hnone
  rcases h (unfired_of_next hsound hlt hnone) with hfiring | ⟨hlive, hqueue⟩
  · exact .inl (hfiring.next hsound hlt hnone)
  · refine (live_or_firing_next hsound hlive m).symm.imp_right fun hlive' => ⟨hlive', ?_⟩
    rcases incoming_next ho hsound m with hsignalling | ⟨haccepted, hsame | hnil⟩
    · -- the queue has grown, and the caller knows its length
      rcases Nat.lt_or_ge (s.next m).pipeline.buffer.incoming.length t with hshort | hfull
      · exact .inl hshort
      · obtain ⟨j, task, rest, hj, hsignals⟩ := hsignalling
        exact .inr (.inr ⟨j, task, rest, hj, hsignals.mono hfull⟩)
    · rw [hsame, haccepted, List.append_nil]
      refine hqueue.imp_right (Or.imp_right fun hsignalling => ?_)
      rcases hsignalling.next hdumping hthreshold m with hnext | hbroadcast | hgiven
      · exact hnext
      · -- the slot would not be live any more
        rw [hbroadcast.live_next] at hlive'
        cases hlive'
        exact (Nat.lt_irrefl _ hlt).elim
      · exact (hheard hgiven).elim
    · rw [hnil]
      exact .inl ht

/-- A slot of the dump event is live, and during the moves that follow entries are
dumped at a threshold of at least one, and no broadcast is given up. -/
structure Watch (world : World) (i : SlotId) (t : Nat) (before after : List Move) : Prop where
  pos : 1 ≤ t
  live : (run world before).pipeline.dumpEvent.live = some i
  dumping : ∀ pre, pre <+: after → (run world (before ++ pre)).pipeline.dumping = true
  threshold : ∀ pre, pre <+: after → (run world (before ++ pre)).pipeline.threshold.toNat = t
  heard : ∀ pre m, pre ++ [m] <+: after → ¬(run world (before ++ pre)).Abandons m

theorem Watch.alert {world : World} {i : SlotId} {t : Nat} {before after : List Move}
    (h : Watch world i t before after) {pre : List Move} (hpre : pre <+: after) :
    i < (run world (before ++ pre)).pipeline.dumpEvent.slots.size ∧
      (run world (before ++ pre)).Alert i t ((run world before).ledgerFrom pre).accepted := by
  -- at first nothing has been accepted yet, and every move keeps the slot alert
  induction pre using List.reverseRecOn with
  | nil =>
    rw [List.append_nil]
    exact ⟨(slots_run world before .dump).live_lt i h.live,
      fun _ => .inr ⟨h.live, .inr (.inl rfl)⟩⟩
  | append_singleton pre m ih =>
    have hpre' : pre <+: after := (List.prefix_append _ _).trans hpre
    obtain ⟨hlt, halert⟩ := ih hpre'
    have hsound := sound_run world (before ++ pre)
    rw [← List.append_assoc, run_concat, ledgerFrom_append, Ledger.accepted_append, ledgerFrom,
      ledgerFrom, Ledger.append_empty]
    have hnext := alert_next halert (orderly_run world _) hsound hlt h.pos (h.dumping pre hpre')
      (h.threshold pre hpre') (h.heard pre m hpre)
    rw [run_append] at hnext ⊢
    exact ⟨hlt.trans_le (by rw [← run_append]; exact size_next hsound m), hnext⟩

/-- While a consumer waits on a slot that has not fired, and no caller is on its way to
a broadcast or about to fire the slot, the queue is shorter than the threshold, or
nothing has been accepted since the slot was live. -/
theorem threshold_wakes {world : World} {i : SlotId} {t : Nat} {before after : List Move}
    (h : Watch world i t before after) :
    let s := run world (before ++ after)
    ∀ c ∈ s.pipeline.consumers, c.waitsOn i = true →
      s.pipeline.dumpEvent.fired? i = none → ¬s.Signalling t → ¬s.Firing i →
      s.pipeline.buffer.incoming.length < t ∨
        ((run world before).ledgerFrom after).accepted = [] := by
  intro s c _ _ hnone hsignalling hfiring
  obtain ⟨-, hqueue⟩ := ((h.alert (List.prefix_refl _)).2 hnone).resolve_left hfiring
  exact hqueue.imp_right fun hrest => hrest.resolve_right hsignalling

/-- A consumer has been started and found nothing to print; then dumping is turned on,
at a threshold and at the latest after an hour. -/
def dumpingMoves (threshold : UInt64) : List Move :=
  Move.begin 1 .start :: List.replicate 20 (Move.act (.caller 1)) ++
    List.replicate 14 (Move.act (.consumer 0)) ++
    Move.begin 0 (.startDump ⟨"app.log"⟩ 33554432 threshold 3600000) ::
    List.replicate 8 (Move.act (.caller 0))

/-- The consumer comes to wait, and one of the two entries that it waits for is
queued. -/
theorem threshold_wakes_of_short :
    let world := World.calm ⟨[], []⟩ fun _ => 0
    let before := dumpingMoves 2
    let after := Move.act (.timer 0) :: List.replicate 14 (Move.act (.consumer 0)) ++
      Move.begin 2 (.log ⟨.info, "t", [], ⟨"f", 1⟩⟩) :: List.replicate 12 (Move.act (.caller 2))
    Watch world 0 2 before after ∧
      (run world (before ++ after)).pipeline.consumers.map (fun c => c.waitsOn 0) = [true] ∧
      (run world (before ++ after)).pipeline.dumpEvent.fired? 0 = none ∧
      (∀ i, ((run world (before ++ after)).caller i).tasks = []) ∧
      ((run world before).ledgerFrom after).accepted.length = 1 ∧
      (run world (before ++ after)).pipeline.buffer.incoming.length < 2 := by
  intro world before after
  have hsettings : ∀ pre ∈ after.inits, (run world (before ++ pre)).pipeline.dumping = true ∧
      (run world (before ++ pre)).pipeline.threshold.toNat = 2 := by
    decide +kernel
  have hwatch : Watch world 0 2 before after := by
    refine ⟨Nat.le_succ 1, by decide +kernel, fun pre hpre => ?_, fun pre hpre => ?_,
      fun pre m hpre => ?_⟩
    · exact (hsettings pre ((List.mem_inits _ _).2 hpre)).1
    · exact (hsettings pre ((List.mem_inits _ _).2 hpre)).2
    · rintro ⟨j, a, rest, rfl, ht, -⟩
      exact quiet_of_caller (j := 2) (by simp [after]) (by decide +kernel) hpre a rest ht
  have hidle := idle_of_begun world (before ++ after) (by decide +kernel)
  have hwaits : (run world (before ++ after)).pipeline.consumers.map (fun c => c.waitsOn 0) =
      [true] := by
    decide +kernel
  have hunfired : (run world (before ++ after)).pipeline.dumpEvent.fired? 0 = none := by
    decide +kernel
  have haccepted : ((run world before).ledgerFrom after).accepted.length = 1 := by decide +kernel
  refine ⟨hwatch, hwaits, hunfired, hidle, haccepted, ?_⟩
  obtain ⟨c, hc, hwaiting⟩ := List.map_eq_singleton_iff.1 hwaits
  refine (threshold_wakes hwatch c (hc ▸ List.mem_singleton_self c) hwaiting hunfired ?_
    ?_).resolve_right ?_
  · rintro ⟨j, task, rest, hj, -⟩
    cases (hidle j).symm.trans hj
  · rintro ⟨j, call, rest, hj, -⟩
    cases (hidle j).symm.trans hj
  · intro hnil
    rw [hnil] at haccepted
    cases haccepted

/-- Dumping has been on at a threshold of one since before an entry was queued, and a
consumer sleeps on a slot that has not fired, with the entry queued and nobody on the
way to wake it. -/
def SleepsOverEntry (world : World) (before after : List Move) (i : SlotId) : Prop :=
  (run world before).pipeline.buffer.incoming.length = 0 ∧
    (∀ pre ∈ after.inits, (run world (before ++ pre)).pipeline.isRunning = true ∧
      (run world (before ++ pre)).pipeline.dumping = true ∧
      (run world (before ++ pre)).pipeline.threshold.toNat = 1) ∧
    (run world (before ++ after)).pipeline.consumers.map (fun c => c.waitsOn i) = [true] ∧
    (run world (before ++ after)).pipeline.dumpEvent.fired? i = none ∧
    (∀ j, ((run world (before ++ after)).caller j).tasks = []) ∧
    (run world (before ++ after)).pipeline.buffer.incoming.length = 1

/-- A consumer sleeps for an hour although the queue is full: it comes to wait only
after the broadcast, or it holds the event's lock, about to wait, until the broadcast
is given up. -/
theorem sleeps_over_full_queue :
    let world := World.calm ⟨[], []⟩ fun _ => 0
    let log := Move.begin 2 (.log ⟨.info, "t", [], ⟨"f", 1⟩⟩)
    let late := log :: List.replicate 12 (Move.act (.caller 2)) ++ Move.act (.timer 0) ::
      List.replicate 14 (Move.act (.consumer 0))
    let locked := Move.act (.timer 0) :: List.replicate 5 (Move.act (.consumer 0)) ++
      log :: List.replicate 80 (Move.act (.caller 2)) ++
      List.replicate 4 (Move.act (.consumer 0))
    SleepsOverEntry world (dumpingMoves 1) late 1 ∧
      SleepsOverEntry world (dumpingMoves 1) locked 0 := by
  intro world log late locked
  constructor
  · exact ⟨by decide +kernel, by decide +kernel, by decide +kernel, by decide +kernel,
      idle_of_begun world _ (by decide +kernel), by decide +kernel⟩
  · exact ⟨by decide +kernel, by decide +kernel, by decide +kernel, by decide +kernel,
      idle_of_begun world _ (by decide +kernel), by decide +kernel⟩

end System

end LogPipeline
