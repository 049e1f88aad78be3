import LogPipeline.Proofs.Dump.Counts
import LogPipeline.Proofs.Ledger.Basic

/-!
# Each step keeps the books

A step of a caller adds to the queue what it enters as accepted, and an entry
that passes the filter stays on its way until it is accepted or refused
(`Task.step_incoming`, `Task.step_counts`, `Task.step_uncounted`). A step of a
consumer prints the lines and counts the losses that it enters.
-/

namespace LogPipeline

open Sync

/-! ## Steps of callers -/

/-- A caller's call on the queue adds to it the entries that it enters as
accepted, and the entries it was given stay on their way until then. -/
theorem BufferCall.Posts.step_ledger {c : BufferCall} {stake : Nat} (h : c.Posts stake)
    (b : RecordBuffer) :
    (c.step b).1.incoming = b.incoming ++ (c.ledger b).accepted ∧
      (Task.onBuffer c stake).inFlight =
        (c.ledger b).accepted.length + (c.ledger b).refused +
          (Task.onBuffer (c.step b).2 stake).inFlight := by
  cases c with
  | enter op a =>
    cases op with
    | append entries =>
      cases hattempt : b.lock.attempt a with
      | mk outcome lock =>
        cases outcome <;>
          simp [BufferCall.step, BufferCall.ledger, Ledger.empty, hattempt, RecordBuffer.perform,
            Task.inFlight]
    | exchange entries room => exact h.elim
    | reserve more =>
      cases hattempt : b.lock.attempt a with
      | mk outcome lock =>
        cases outcome with
        | acquired =>
          simp only [BufferCall.step, BufferCall.ledger, Ledger.empty, hattempt,
            RecordBuffer.perform]
          split
          · simp [Task.inFlight]
          · split <;> simp [Task.inFlight]
        | _ => simp [BufferCall.step, BufferCall.ledger, Ledger.empty, hattempt, Task.inFlight]
  | _ => simp [BufferCall.step, BufferCall.ledger, Ledger.empty, Task.inFlight]

/-- A caller's call on the queue is refused if it enters so, and then as many
entries are to be counted as dropped. -/
theorem BufferCall.Posts.refused_ledger {c : BufferCall} {stake : Nat} (h : c.Posts stake)
    (b : RecordBuffer) :
    (c.ledger b).refused = 0 ∧ (c.step b).2 ≠ .finished .refused ∨
      (c.ledger b).refused = stake ∧ (c.step b).2 = .finished .refused := by
  cases c with
  | enter op a =>
    cases hattempt : b.lock.attempt a with
    | mk outcome lock =>
      cases op with
      | append entries =>
        cases outcome with
        | acquired =>
          exact .inl (by simp [BufferCall.step, BufferCall.ledger, Ledger.empty, hattempt,
            RecordBuffer.perform])
        | refused =>
          obtain rfl : stake = entries.length := h
          exact .inr (by simp [BufferCall.step, BufferCall.ledger, Ledger.empty, hattempt])
        | again a' =>
          exact .inl (by simp [BufferCall.step, BufferCall.ledger, Ledger.empty, hattempt])
      | exchange entries room => exact h.elim
      | reserve more =>
        -- a call that makes room makes any number of attempts
        refine .inl ⟨rfl, ?_⟩
        rcases SpinLock.attempt_of_budget_zero h b.lock with hacq | hagain
        · simp only [BufferCall.step, hacq, RecordBuffer.perform]
          split
          · simp
          · split <;> simp
        · simp [BufferCall.step, hagain]
  | publish reply => exact .inl (by simp [BufferCall.step, BufferCall.ledger, Ledger.empty])
  | grow needed => exact .inl (by simp [BufferCall.step, BufferCall.ledger, Ledger.empty])
  | leave reply =>
    cases reply with
    | refused => exact h.elim
    | _ => exact .inl (by simp [BufferCall.step, BufferCall.ledger, Ledger.empty])
  | finished reply => exact h.elim

namespace Task

/-- A caller hands no entry on. -/
theorem handed_ledger (t : Task) (p : Pipeline) : (t.ledger p).handed = [] := by
  unfold ledger BufferCall.ledger
  split <;> (try split) <;> (try split) <;> rfl

/-- A task whose call on the queue, if it is at one, is that of a caller. -/
def Posts : Task → Prop
  | .onBuffer c stake => c.Posts stake
  | _ => True

variable {t : Task} (h : t.Posts) (i : Nat) (p : Pipeline)
include h

/-- The queue grows by the accepted entries. -/
theorem step_incoming :
    (t.step i p).pipeline.buffer.incoming = p.buffer.incoming ++ (t.ledger p).accepted := by
  by_cases hqueue : ∃ c stake, t = .onBuffer c stake
  · obtain ⟨c, stake, rfl⟩ := hqueue
    have hc := (BufferCall.Posts.step_ledger h p.buffer).1
    simp only [step, ledger]
    split <;> exact hc
  · -- all other tasks leave the queue
    have haccepted : (t.ledger p).accepted = [] := by
      unfold ledger
      split <;> first | rfl | exact (hqueue ⟨_, _, rfl⟩).elim
    rw [haccepted, List.append_nil]
    apply pipeline_cases (P := fun p' => p'.buffer.incoming = p.buffer.incoming)
    case onBuffer =>
      intro c stake ht
      exact (hqueue ⟨c, stake, ht⟩).elim
    case onEvent =>
      intro name c _
      cases name <;> rfl
    case store =>
      intro setting _
      cases setting <;> rfl
    all_goals
      intros
      rfl

/-- An entry that passes the filter is on its way until it is accepted or
refused. -/
theorem step_counts :
    (t.ledger p).passed + t.inFlight =
      (t.ledger p).accepted.length + (t.ledger p).refused +
        ((t.step i p).next.map inFlight).sum := by
  cases t with
  | checkSwitch r => cases hs : p.switchOn <;> simp [step, ledger, Ledger.empty, inFlight, hs]
  | checkLevel r =>
    by_cases hl : p.level ≤ r.level <;> simp [step, ledger, Ledger.empty, inFlight, hl]
  | checkBlocks level blocks =>
    by_cases hl : p.level ≤ level <;> by_cases hb : blocks = [] <;>
      simp [step, ledger, Ledger.empty, inFlight, hl, hb]
  | onBuffer c stake =>
    have hc := (BufferCall.Posts.step_ledger h p.buffer).2
    have hpassed : (c.ledger p.buffer).passed = 0 := by
      unfold BufferCall.ledger
      split
      · split <;> rfl
      · rfl
    simp only [step, ledger, hpassed, Nat.zero_add, hc]
    cases hcall : (c.step p.buffer).2 with
    | finished reply => cases reply <;> simp [BufferCall.reply?, afterBuffer, inFlight]
    | _ => simp [BufferCall.reply?]
  | checkDumping queued =>
    cases hd : p.dumping <;> simp [step, ledger, Ledger.empty, inFlight, hd]
  | checkThreshold queued =>
    by_cases hq : p.threshold.toNat ≤ queued <;> simp [step, ledger, Ledger.empty, inFlight, hq]
  | onEvent name c =>
    simp only [step]
    split <;> simp [ledger, Ledger.empty, inFlight]
  | lockLifecycle =>
    simp only [step]
    split <;> simp [ledger, Ledger.empty, inFlight]
  | checkStopped =>
    simp only [step]
    split <;> simp [ledger, Ledger.empty, inFlight, startTasks]
  | takeWorker =>
    simp only [step]
    split <;> simp [ledger, Ledger.empty, inFlight, stopTasks]
  | join k =>
    simp only [step]
    split <;> simp [ledger, Ledger.empty, inFlight]
  | _ => simp [step, ledger, Ledger.empty, inFlight, BufferCall.append]

/-- What is refused is to be counted as dropped next. -/
theorem step_uncounted : ((t.step i p).next.map uncounted).sum = (t.ledger p).refused := by
  cases t with
  | onBuffer c stake =>
    simp only [step, ledger]
    rcases BufferCall.Posts.refused_ledger h p.buffer with ⟨hzero, hreply⟩ | ⟨hstake, hreply⟩
    · rw [hzero]
      cases hcall : (c.step p.buffer).2 with
      | finished reply =>
        cases reply <;> simp_all [BufferCall.reply?, afterBuffer, uncounted]
      | _ => simp [BufferCall.reply?, uncounted]
    · rw [hstake, hreply]
      simp [BufferCall.reply?, afterBuffer, uncounted]
  | checkSwitch r =>
    simp only [step]
    split <;> simp [ledger, Ledger.empty, uncounted]
  | checkLevel r =>
    simp only [step]
    split <;> simp [ledger, Ledger.empty, uncounted]
  | checkBlocks level blocks =>
    simp only [step]
    split <;> simp [ledger, Ledger.empty, uncounted]
  | checkDumping queued =>
    simp only [step]
    split <;> simp [ledger, Ledger.empty, uncounted]
  | checkThreshold queued =>
    simp only [step]
    split <;> simp [ledger, Ledger.empty, uncounted]
  | onEvent name c =>
    simp only [step]
    split <;> simp [ledger, Ledger.empty, uncounted]
  | lockLifecycle =>
    simp only [step]
    split <;> simp [ledger, Ledger.empty, uncounted]
  | checkStopped =>
    simp only [step]
    split <;> simp [ledger, Ledger.empty, uncounted, startTasks]
  | takeWorker =>
    simp only [step]
    split <;> simp [ledger, Ledger.empty, uncounted, stopTasks]
  | join k =>
    simp only [step]
    split <;> simp [ledger, Ledger.empty, uncounted]
  | _ => simp [step, ledger, Ledger.empty, uncounted]

omit h in
/-- What is to be counted as dropped is counted. -/
theorem step_dropped :
    (t.step i p).pipeline.dropped = p.dropped + UInt64.ofNat t.uncounted := by
  by_cases hcounts : ∃ n, t = .countDropped n
  · obtain ⟨n, rfl⟩ := hcounts
    rfl
  · have hzero : t.uncounted = 0 := by
      unfold uncounted
      split
      · exact (hcounts ⟨_, rfl⟩).elim
      · rfl
    rw [hzero, show UInt64.ofNat 0 = 0 from rfl, UInt64.add_zero]
    apply pipeline_cases (P := fun p' => p'.dropped = p.dropped)
    case countDropped =>
      intro n ht
      exact (hcounts ⟨n, ht⟩).elim
    case onEvent =>
      intro name c _
      cases name <;> rfl
    case store =>
      intro setting _
      cases setting <;> rfl
    all_goals
      intros
      rfl

omit h in
/-- A caller prints nothing. -/
theorem step_printed : (t.step i p).pipeline.printed = p.printed := by
  apply pipeline_cases (P := fun p' => p'.printed = p.printed)
  case onEvent =>
    intro name c _
    cases name <;> rfl
  case store =>
    intro setting _
    cases setting <;> rfl
  all_goals
    intros
    rfl

end Task

/-! ## Dumps -/

namespace DumpReport

theorem length_fates (r : DumpReport) : r.fates.length = r.written + r.spilled + r.lost := by
  simp [fates, Nat.add_assoc]

theorem countP_fates (r : DumpReport) : (r.fates.countP fun f => f = .lost) = r.lost := by
  simp [fates, List.countP_replicate]

end DumpReport

/-- A dump prints nothing. -/
theorem DumpReport.line?_of_mem_fates {r : DumpReport} {f : Fate} (h : f ∈ r.fates) :
    f.line? = none := by
  simp only [fates, List.mem_append, List.mem_replicate] at h
  rcases h with (⟨-, rfl⟩ | ⟨-, rfl⟩) | ⟨-, rfl⟩ <;> rfl

/-- A dump has a fate for each of its entries. -/
theorem DumpWriter.length_fates_dump (d : DumpWriter) (entries : List Entry) (w : World) :
    (d.dump entries w).1.fates.length = entries.length := by
  rw [DumpReport.length_fates]
  by_cases hne : entries = []
  · simp [dump, hne]
  · exact (d.dump_counts hne w).1

/-! ## Steps of consumers -/

namespace Consumer

/-- A consumer lets no entry pass, and queues none. -/
theorem ledger_counts (p : Pipeline) (c : Consumer) :
    (c.ledger p).passed = 0 ∧ (c.ledger p).accepted = [] ∧ (c.ledger p).refused = 0 := by
  unfold ledger
  split
  · exact ⟨rfl, rfl, rfl⟩
  · split <;> exact ⟨rfl, rfl, rfl⟩
  · exact ⟨rfl, rfl, rfl⟩

/-- A dump enters as lost what it reports as lost. -/
theorem lost_ledger_of_dump {c : Consumer} (hs : c.stage = .dump) (p : Pipeline) :
    (c.ledger p).lost = (p.writer.dump c.draining p.world).1.lost := by
  have hlen := p.writer.length_fates_dump c.draining p.world
  have hcount := (p.writer.dump c.draining p.world).1.countP_fates
  rw [← List.map_snd_zip (Nat.le_of_eq hlen), List.countP_map] at hcount
  simp only [Consumer.ledger, hs, Ledger.lost]
  exact hcount

/-- Entries that neither file took are counted as dropped. -/
theorem step_dropped (p : Pipeline) (c : Consumer) :
    (c.step p).1.dropped = p.dropped + UInt64.ofNat (c.ledger p).lost := by
  cases hs : c.stage with
  | dump =>
    rw [lost_ledger_of_dump hs]
    simp [step, hs, dumpAll, Pipeline.addDropped]
  | print sink rest =>
    cases rest with
    | nil => simp [step, hs, Consumer.ledger, Ledger.lost, Ledger.empty]
    | cons e rest =>
      simp only [step, hs, Consumer.ledger]
      split <;> simp [Ledger.lost, Ledger.empty]
  | flush sink =>
    simp only [step, hs, Consumer.ledger]
    split <;> simp [Ledger.lost, Ledger.empty]
  | _ => simp [step, hs, Consumer.ledger, Ledger.lost, Ledger.empty]

/-- A consumer prints the lines that it enters. -/
theorem step_printed (p : Pipeline) (c : Consumer) :
    (c.step p).1.printed.reverse.filter Printed.isLine =
      p.printed.reverse.filter Printed.isLine ++ (c.ledger p).lines := by
  cases hs : c.stage with
  | dump =>
    have hnone : (c.ledger p).lines = [] := by
      refine List.filterMap_eq_nil_iff.2 fun h hmem => ?_
      simp only [Consumer.ledger, hs] at hmem
      exact DumpReport.line?_of_mem_fates (List.of_mem_zip hmem).2
    rw [hnone, List.append_nil]
    simp only [step, hs]
    rfl
  | print sink rest =>
    cases rest with
    | nil => simp [step, hs, Consumer.ledger, Ledger.lines, Ledger.empty]
    | cons e rest =>
      simp only [step, hs, Consumer.ledger]
      split <;> simp [Ledger.lines, Ledger.empty, Fate.line?, Printed.isLine]
  | flush sink =>
    simp only [step, hs, Consumer.ledger]
    split <;> simp [Ledger.lines, Ledger.empty, Printed.isLine]
  | _ => simp [step, hs, Consumer.ledger, Ledger.lines, Ledger.empty]

/-- A sink that has panicked is remembered. -/
theorem panicked_of_step {p : Pipeline} {c : Consumer} (h : (c.step p).2.panicked = false) :
    c.panicked = false := by
  cases hs : c.stage with
  | print sink rest =>
    cases rest with
    | nil => simpa [step, hs] using h
    | cons e rest =>
      simp only [step, hs] at h
      split at h
      · cases h
      · exact h
  | checkStop call =>
    simp only [step, hs] at h
    split at h <;> exact h
  | takeQueue call =>
    simp only [step, hs] at h
    split at h <;> exact h
  | _ => simpa [step, hs] using h

theorem panicked_expire (p : Pipeline) (c : Consumer) : (c.expire p).panicked = c.panicked := by
  unfold expire
  split <;> rfl

theorem unhandled_of_ended {c : Consumer} (h : c.Sound) (hs : c.stage = .ended) :
    c.unhandled = [] := by
  simp only [Sound, hs] at h
  simp [unhandled, taken, hs, h]

theorem unhandled_expire (p : Pipeline) (c : Consumer) :
    (c.expire p).unhandled = c.unhandled := by
  unfold expire
  split
  · next hs => simp [unhandled, taken, hs]
  · next hs => simp [unhandled, taken, hs]
  · rfl

/-- What is in the hands of a consumer is the end of what it has taken. -/
theorem Sound.unhandled_suffix {c : Consumer} (h : c.Sound) : c.unhandled <:+ c.taken := by
  unfold Sound at h
  unfold unhandled
  split
  · next hs =>
    simp only [hs] at h
    simpa [taken, hs] using h
  · exact List.nil_suffix
  · exact List.suffix_refl _

end Consumer

end LogPipeline
