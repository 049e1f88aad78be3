import LogPipeline.Sync.BroadcastEvent

/-!
# What a call does to an event

A call keeps to the operation it was begun for (`EventCall.Serves`), and each
operation has its own effect on the live slot: only a call that has just got
the lock changes it, a close to none, a broadcast to a new slot, a reopening
from none to a new slot, and all others leave it. A slot fires only by a call
that is about to fire it, and such a call has retired the slot (`fired?_step`,
`fires_of_step`).
-/

namespace LogPipeline.Sync

/-- An acquisition without a budget is never refused. -/
theorem SpinLock.attempt_of_budget_zero {a : Acquisition} (h : a.budget = 0) (l : SpinLock) :
    l.attempt a = (.acquired, .held) ∨ l.attempt a = (.again a, .held) := by
  cases l with
  | free => exact .inl rfl
  | held => exact .inr (by simp [SpinLock.attempt, h])

/-- The attempts of an acquisition keep its budget. -/
theorem SpinLock.attempt_again {a a' : Acquisition} {l l' : SpinLock}
    (h : l.attempt a = (.again a', l')) : a'.budget = a.budget := by
  cases l with
  | free => cases h
  | held =>
    simp only [SpinLock.attempt] at h
    split at h
    · cases h; rfl
    · split at h <;> cases h; rfl

/-- What an operation does to the slots does not depend on the lock. -/
theorem BroadcastEvent.exchange_lock (e : BroadcastEvent) (l : SpinLock) (op : EventOp) :
    { e with lock := l }.exchange op =
      ({ (e.exchange op).1 with lock := l }, (e.exchange op).2) := by
  cases op with
  | reopen =>
    simp only [exchange]
    split <;> rfl
  | _ => rfl

namespace EventCall

/-- The attempts a call for an operation may make at the lock. -/
def budget (op : EventOp) : UInt32 :=
  if op = .broadcast then BroadcastEvent.broadcastAttempts else 0

/-- A call under way, or ended, is one for an operation. -/
def Serves (op : EventOp) : EventCall → Prop
  | .enter o a => o = op ∧ a.budget = budget op
  | .leave o _ => o = op
  | .fire _ status =>
    op = .broadcast ∧ status = .signaled ∨ op = .close ∧ status = .closed
  | .poll _ => op = .wait .poll
  | .register _ mode => op = .wait mode
  | .waiting _ mode => op = .wait mode
  | .unregister _ _ => ∃ mode, op = .wait mode
  | .finished _ => True

theorem serves_start (op : EventOp) : (start op).Serves op := ⟨rfl, rfl⟩

theorem serves_afterLock (e : BroadcastEvent) (op : EventOp) (slot : Option SlotId) :
    (afterLock e op slot).Serves op := by
  cases op with
  | wait mode => cases slot <;> cases mode <;> simp [afterLock, Serves]
  | _ => cases slot <;> simp [afterLock, Serves]

/-- A step of a call does not change what it is for. -/
theorem Serves.step {op : EventOp} {c : EventCall} (h : c.Serves op) (e : BroadcastEvent) :
    (c.step e).2.Serves op := by
  cases c with
  | enter o a =>
    simp only [EventCall.step]
    split
    · exact h.1
    · trivial
    · next hagain => exact ⟨h.1, (SpinLock.attempt_again hagain).trans h.2⟩
  | leave o slot =>
    obtain rfl : o = op := h
    exact serves_afterLock e o slot
  | register i mode => exact h
  | waiting i mode =>
    simp only [EventCall.step]
    split
    · exact ⟨mode, h⟩
    · exact h
  | _ => trivial

theorem Serves.expire {op : EventOp} {c : EventCall} (h : c.Serves op) (e : BroadcastEvent) :
    (c.expire e).Serves op := by
  unfold EventCall.expire
  split
  · exact ⟨_, h⟩
  · exact h

/-- A call that tries to take the lock exchanges slots if the lock is free, and
changes nothing if it is held. -/
theorem step_enter (e : BroadcastEvent) (op : EventOp) (a : Acquisition) :
    e.lock = .free ∧ (step e (.enter op a)).1 = { (e.exchange op).1 with lock := .held } ∧
        (step e (.enter op a)).2 = .leave op (e.exchange op).2 ∨
      e.lock = .held ∧ (step e (.enter op a)).1 = e ∧
        ((step e (.enter op a)).2 = .finished (.failed .lockBusy) ∨
          ∃ a', (step e (.enter op a)).2 = .enter op a') := by
  cases hlock : e.lock with
  | free =>
    refine .inl ⟨rfl, ?_⟩
    simp only [step, SpinLock.attempt, hlock, BroadcastEvent.exchange_lock]
    exact ⟨trivial, trivial⟩
  | held =>
    have hsame : { e with lock := .held } = e := by rw [← hlock]
    refine .inr ⟨rfl, ?_⟩
    by_cases hbudget : a.budget = 0
    · simp [step, hlock, SpinLock.attempt, hbudget, hsame]
    · by_cases hlast : a.budget ≤ a.failed + 1
      · simp [step, hlock, SpinLock.attempt, hbudget, hlast, hsame]
      · simp [step, hlock, SpinLock.attempt, hbudget, hlast, hsame]

/-- A call that is never refused stays at a lock that is held. -/
theorem enter_of_held {e : BroadcastEvent} {op : EventOp} {a : Acquisition}
    (hlock : e.lock = .held) (hbudget : a.budget = 0) :
    ∃ a', (step e (.enter op a)).2 = .enter op a' := by
  simp [step, hlock, SpinLock.attempt, hbudget]

/-- Only a call that has just got the lock changes the live slot. -/
theorem step_live (e : BroadcastEvent) (c : EventCall) :
    (c.step e).1.live = e.live ∧ (∀ op slot, (c.step e).2 ≠ .leave op slot) ∨
      ∃ op a, c = .enter op a ∧ (c.step e).1.live = (e.exchange op).1.live ∧
        (c.step e).2 = .leave op (e.exchange op).2 := by
  cases c with
  | enter op a =>
    rcases step_enter e op a with ⟨-, he, hc⟩ | ⟨-, he, hc | ⟨a', hc⟩⟩
    · exact .inr ⟨op, a, rfl, by rw [he], hc⟩
    · exact .inl ⟨by rw [he], by rw [hc]; nofun⟩
    · exact .inl ⟨by rw [he], by rw [hc]; nofun⟩
  | leave op slot =>
    refine .inl ⟨rfl, fun o s => ?_⟩
    cases op with
    | wait mode => cases slot <;> cases mode <;> simp [step, afterLock]
    | _ => cases slot <;> simp [step, afterLock]
  | waiting i mode =>
    simp only [step]
    split <;> exact .inl ⟨rfl, nofun⟩
  | _ => exact .inl ⟨rfl, nofun⟩

/-- A call that only looks or waits leaves the live slot. -/
theorem Serves.live_step {op : EventOp} {c : EventCall} (h : c.Serves op) (e : BroadcastEvent)
    (hop : op = .isClosed ∨ op = .waiters ∨ ∃ mode, op = .wait mode) :
    (c.step e).1.live = e.live := by
  rcases step_live e c with ⟨hl, -⟩ | ⟨o, a, rfl, hl, -⟩
  · exact hl
  · obtain rfl : o = op := h.1
    rw [hl]
    rcases hop with rfl | rfl | ⟨mode, rfl⟩ <;> rfl

/-! ## Reopening -/

/-- A reopening under way: it still waits for the lock, or the event is open. -/
structure Rearming (e : BroadcastEvent) (c : EventCall) : Prop where
  serves : c.Serves .reopen
  armed : (∃ a, c = .enter .reopen a) ∨ e.live.isSome

theorem rearming_start (e : BroadcastEvent) : Rearming e (.start .reopen) :=
  ⟨serves_start _, .inl ⟨_, rfl⟩⟩

theorem Rearming.step {e : BroadcastEvent} {c : EventCall} (h : Rearming e c) :
    Rearming (c.step e).1 (c.step e).2 := by
  refine ⟨h.serves.step e, ?_⟩
  rcases h.armed with ⟨a, rfl⟩ | hs
  · rcases SpinLock.attempt_of_budget_zero h.serves.2 e.lock with hacq | hagain
    · refine .inr ?_
      simp only [EventCall.step, hacq, BroadcastEvent.exchange, BroadcastEvent.arm]
      cases hl : e.live <;> simp
    · exact .inl ⟨a, by simp [EventCall.step, hagain]⟩
  · refine .inr ?_
    rcases step_live e c with ⟨hl, -⟩ | ⟨o, a, rfl, hl, -⟩
    · exact hl ▸ hs
    · obtain rfl : o = .reopen := h.serves.1
      rw [hl]
      obtain ⟨i, hi⟩ := Option.isSome_iff_exists.1 hs
      simp [BroadcastEvent.exchange, hi]

/-- A reopening that has ended has left the event open. -/
theorem Rearming.isSome_of_finished {e : BroadcastEvent} {reply : EventReply}
    (h : Rearming e (.finished reply)) : e.live.isSome :=
  h.armed.resolve_left fun ⟨_, ha⟩ => by cases ha

end EventCall

/-! ## Slots -/

namespace BroadcastEvent

@[simp] theorem size_modifySlot (e : BroadcastEvent) (i : SlotId) (f : Slot → Slot) :
    (e.modifySlot i f).slots.size = e.slots.size := by simp [modifySlot]

theorem fired?_modifySlot (e : BroadcastEvent) (i j : SlotId) {f : Slot → Slot}
    (hf : ∀ s, (f s).fired = s.fired) : (e.modifySlot j f).fired? i = e.fired? i := by
  simp only [fired?, modifySlot, Array.getElem?_modify]
  split
  · cases e.slots[i]? <;> simp [hf]
  · rfl

theorem fired?_fire_of_ne (e : BroadcastEvent) {i j : SlotId} (h : j ≠ i) (status : WaitStatus) :
    (e.fire j status).fired? i = e.fired? i := by
  simp [fired?, fire, modifySlot, Array.getElem?_modify, h]

theorem fired?_fire_self (e : BroadcastEvent) {i : SlotId} (h : i < e.slots.size)
    (status : WaitStatus) : (e.fire i status).fired? i ≠ none := by
  simp only [fired?, fire, modifySlot, Array.getElem?_modify, if_pos, Array.getElem?_eq_getElem h]
  cases hfired : e.slots[i].fired <;> simp [hfired]

theorem fired?_fire_of_none (e : BroadcastEvent) {i : SlotId} (h : i < e.slots.size)
    (hnone : e.fired? i = none) (status : WaitStatus) : (e.fire i status).fired? i = some status := by
  simp only [fired?, Array.getElem?_eq_getElem h, Option.bind_some] at hnone
  simp only [fired?, fire, modifySlot, Array.getElem?_modify, if_pos, Array.getElem?_eq_getElem h]
  simp [hnone]

theorem lt_of_fired {e : BroadcastEvent} {i : SlotId} {status : WaitStatus}
    (h : e.fired? i = some status) : i < e.slots.size := by
  unfold fired? at h
  obtain ⟨slot, hslot, -⟩ := Option.bind_eq_some_iff.1 h
  exact (Array.getElem?_eq_some_iff.1 hslot).1

theorem fired?_arm (e : BroadcastEvent) {i : SlotId} (h : i < e.slots.size) :
    e.arm.fired? i = e.fired? i := by
  simp [fired?, arm, Array.getElem?_push, Nat.ne_of_lt h]

theorem size_exchange (e : BroadcastEvent) (op : EventOp) :
    e.slots.size ≤ (e.exchange op).1.slots.size := by
  cases op with
  | broadcast => simp [exchange, arm]
  | reopen =>
    simp only [exchange]
    split <;> simp [arm]
  | _ => exact Nat.le_refl _

end BroadcastEvent

namespace EventCall

/-- A call that has retired a slot and not yet fired it. -/
def Fires (i : SlotId) : EventCall → Prop
  | .leave .broadcast (some j) | .leave .close (some j) => j = i
  | .fire j _ => j = i
  | _ => False

/-- A call that knows a slot to wait on. -/
def Holds (i : SlotId) : EventCall → Prop
  | .leave (.wait _) (some j) => j = i
  | .poll j | .register j _ | .waiting j _ => j = i
  | _ => False

theorem size_step (e : BroadcastEvent) (c : EventCall) :
    e.slots.size ≤ (c.step e).1.slots.size := by
  cases c with
  | enter op a =>
    rcases step_enter e op a with ⟨-, he, -⟩ | ⟨-, he, -⟩
    · rw [he]
      exact e.size_exchange op
    · exact Nat.le_of_eq (by rw [he])
  | waiting i mode =>
    simp only [step]
    split <;> exact Nat.le_refl _
  | _ => simp [step, BroadcastEvent.fire]

/-- A slot fires only by a step of a call that is about to fire it. -/
theorem fired?_step {e : BroadcastEvent} (c : EventCall) {i : SlotId} (hlt : i < e.slots.size) :
    (c.step e).1.fired? i = e.fired? i ∨ ∃ status, c = .fire i status := by
  cases c with
  | enter op a =>
    left
    rcases step_enter e op a with ⟨-, he, -⟩ | ⟨-, he, -⟩ <;> rw [he]
    cases op with
    | broadcast => exact e.fired?_arm hlt
    | reopen =>
      simp only [BroadcastEvent.exchange]
      split
      · exact e.fired?_arm hlt
      · rfl
    | _ => rfl
  | fire j status =>
    by_cases hji : j = i
    · exact .inr ⟨status, by rw [hji]⟩
    · exact .inl (e.fired?_fire_of_ne hji status)
  | register j mode => exact .inl (e.fired?_modifySlot i j fun _ => rfl)
  | unregister j status => exact .inl (e.fired?_modifySlot i j fun _ => rfl)
  | waiting j mode =>
    left
    simp only [step]
    split <;> rfl
  | _ => exact .inl rfl

theorem unfired_of_step {e : BroadcastEvent} {c : EventCall} {i : SlotId}
    (hlt : i < e.slots.size) (h : (c.step e).1.fired? i = none) : e.fired? i = none := by
  rcases fired?_step c hlt with hsame | ⟨status, rfl⟩
  · exact hsame.symm.trans h
  · exact (e.fired?_fire_self hlt status h).elim

theorem Fires.step {e : BroadcastEvent} {c : EventCall} {i : SlotId} (h : c.Fires i)
    (hlt : i < e.slots.size) : (c.step e).2.Fires i ∨ (c.step e).1.fired? i ≠ none := by
  unfold Fires at h
  split at h
  · exact .inl h
  · exact .inl h
  · subst h
    exact .inr (BroadcastEvent.fired?_fire_self e hlt _)
  · exact h.elim

theorem live_of_new {e : BroadcastEvent} {c : EventCall} {i : SlotId} (hge : e.slots.size ≤ i)
    (hlt : i < (c.step e).1.slots.size) : (c.step e).1.live = some i := by
  have harm : i < e.arm.slots.size → e.arm.live = some i := by
    intro h
    rw [BroadcastEvent.arm, Array.size_push] at h
    exact congrArg some (Nat.le_antisymm hge (Nat.le_of_lt_succ h))
  have hold : (c.step e).1.slots.size = e.slots.size → (c.step e).1.live = some i := by
    intro h
    rw [h] at hlt
    exact (Nat.lt_irrefl _ (Nat.lt_of_lt_of_le hlt hge)).elim
  cases c with
  | enter op a =>
    rcases step_enter e op a with ⟨-, he, -⟩ | ⟨-, he, -⟩
    · rw [he] at hlt hold ⊢
      cases op with
      | broadcast => exact harm hlt
      | reopen =>
        simp only [BroadcastEvent.exchange] at hlt hold ⊢
        split at hlt
        · next hnone =>
          rw [if_pos hnone]
          exact harm hlt
        · next hsome =>
          rw [if_neg hsome] at hold ⊢
          exact hold rfl
      | _ => exact hold rfl
    · exact hold (by rw [he])
  | waiting j mode =>
    refine hold ?_
    simp only [step]
    split <;> rfl
  | fire j status | register j mode | unregister j status => exact hold (e.size_modifySlot j _)
  | _ => exact hold rfl

theorem live_or_fires {e : BroadcastEvent} {c : EventCall} {i : SlotId} (h : e.live = some i) :
    (c.step e).1.live = some i ∨ (c.step e).2.Fires i := by
  rcases step_live e c with ⟨hlive, -⟩ | ⟨op, a, rfl, hlive, hc⟩
  · exact .inl (hlive.trans h)
  · rw [hlive, hc]
    cases op with
    | broadcast | close => exact .inr (by simp [BroadcastEvent.exchange, h, Fires])
    | reopen => exact .inl (by simp [BroadcastEvent.exchange, h])
    | _ => exact .inl h

/-- A slot that a call holds is one it has held before, or the live one when it has just
got the lock. -/
theorem holds_of_step {e : BroadcastEvent} {c : EventCall} {i : SlotId}
    (h : (c.step e).2.Holds i) : c.Holds i ∨ ∃ mode a, c = .enter (.wait mode) a ∧
      e.lock = .free ∧ e.live = some i := by
  cases c with
  | enter op a =>
    right
    rcases step_enter e op a with ⟨hlock, -, hc⟩ | ⟨-, -, hc | ⟨a', hc⟩⟩ <;> rw [hc] at h
    · unfold Holds at h
      split at h
      · next hleave =>
        obtain ⟨rfl, hlive⟩ := EventCall.leave.inj hleave
        exact ⟨_, a, rfl, hlock, hlive.trans (congrArg some h)⟩
      · next hleave => cases hleave
      · next hleave => cases hleave
      · next hleave => cases hleave
      · exact h.elim
    · exact h.elim
    · exact h.elim
  | leave op slot =>
    cases op with
    | wait mode => cases slot <;> cases mode <;> first | exact h.elim | exact .inl h
    | _ => cases slot <;> exact h.elim
  | register j mode => exact .inl h
  | waiting j mode =>
    simp only [step] at h
    split at h
    · exact h.elim
    · exact .inl h
  | _ => exact h.elim

/-- A slot that is live has been so before, or is a new one. -/
theorem live_of_step {e : BroadcastEvent} {c : EventCall} {i : SlotId}
    (h : (c.step e).1.live = some i) :
    e.live = some i ∨
      i = e.slots.size ∧ i < (c.step e).1.slots.size ∧ (c.step e).1.fired? i = none := by
  have harm : e.arm.live = some i →
      i = e.slots.size ∧ i < e.arm.slots.size ∧ e.arm.fired? i = none := fun hi => by
    obtain rfl : e.slots.size = i := Option.some.inj hi
    exact ⟨rfl, by simp [BroadcastEvent.arm],
      by simp [BroadcastEvent.arm, BroadcastEvent.fired?, Slot.fresh]⟩
  rcases step_live e c with ⟨hlive, -⟩ | ⟨op, a, rfl, -, hleave⟩
  · exact .inl (hlive ▸ h)
  · rcases step_enter e op a with ⟨-, he, -⟩ | ⟨-, he, -⟩
    · rw [he] at h ⊢
      cases op with
      | broadcast => exact .inr (harm h)
      | close => cases h
      | reopen =>
        simp only [BroadcastEvent.exchange] at h ⊢
        split at h
        · next hnone =>
          rw [if_pos hnone]
          exact .inr (harm h)
        · exact .inl h
      | _ => exact .inl h
    · rw [he] at h
      exact .inl h

theorem live_lt_step {e : BroadcastEvent} {c : EventCall} {i : SlotId}
    (he : ∀ j, e.live = some j → j < e.slots.size) (h : (c.step e).1.live = some i) :
    i < (c.step e).1.slots.size := by
  rcases live_of_step h with hlive | ⟨-, hlt, -⟩
  · exact Nat.lt_of_lt_of_le (he i hlive) (size_step e c)
  · exact hlt

/-- A slot that a broadcast or a close has just retired is live no longer. -/
theorem live_ne_of_retired {e : BroadcastEvent} {op : EventOp} {a : Acquisition} {i : SlotId}
    (hlt : i < e.slots.size) (hlock : e.lock = .free) (hop : op = .broadcast ∨ op = .close) :
    (step e (.enter op a)).1.live ≠ some i := by
  rcases step_enter e op a with ⟨-, he, -⟩ | ⟨hheld, -, -⟩
  · rw [he]
    rcases hop with rfl | rfl
    · simpa [BroadcastEvent.exchange, BroadcastEvent.arm] using Nat.ne_of_gt hlt
    · nofun
  · rw [hlock] at hheld
    cases hheld

/-- A call is about to fire a slot if it was before, or if it has just retired it. -/
theorem fires_of_step {e : BroadcastEvent} {c : EventCall} {i : SlotId}
    (h : (c.step e).2.Fires i) :
    c.Fires i ∧ (c.step e).1.live = e.live ∧ (∀ status, c ≠ .fire i status) ∨
      ∃ op a, c = .enter op a ∧ e.lock = .free ∧ e.live = some i ∧
        (op = .broadcast ∨ op = .close) := by
  cases c with
  | enter op a =>
    right
    rcases step_enter e op a with ⟨hlock, -, hc⟩ | ⟨-, -, hc | ⟨a', hc⟩⟩ <;> rw [hc] at h
    · refine ⟨op, a, rfl, hlock, ?_⟩
      unfold Fires at h
      split at h
      · next hleave =>
        obtain ⟨rfl, hlive⟩ := EventCall.leave.inj hleave
        exact ⟨hlive.trans (congrArg some h), .inl rfl⟩
      · next hleave =>
        obtain ⟨rfl, hlive⟩ := EventCall.leave.inj hleave
        exact ⟨hlive.trans (congrArg some h), .inr rfl⟩
      · next hleave => cases hleave
      · exact h.elim
    · exact h.elim
    · exact h.elim
  | leave op slot =>
    cases op with
    | broadcast | close =>
      cases slot with
      | none => exact h.elim
      | some j => exact .inl ⟨h, rfl, nofun⟩
    | wait mode => cases slot <;> cases mode <;> exact h.elim
    | _ => cases slot <;> exact h.elim
  | waiting j mode =>
    simp only [step] at h
    split at h <;> exact h.elim
  | _ => exact h.elim

end EventCall

/-- Two states of an event that differ in nothing but the lock and the numbers of
waiters. -/
structure BroadcastEvent.Agrees (e e' : BroadcastEvent) : Prop where
  live : e'.live = e.live
  size : e'.slots.size = e.slots.size
  fired : ∀ i, e'.fired? i = e.fired? i

theorem BroadcastEvent.Agrees.refl (e : BroadcastEvent) : e.Agrees e := ⟨rfl, rfl, fun _ => rfl⟩

theorem EventCall.Serves.agrees_step {mode : WaitMode} {c : EventCall} (h : c.Serves (.wait mode))
    (e : BroadcastEvent) : e.Agrees (c.step e).1 := by
  cases c with
  | enter op a =>
    obtain rfl : op = .wait mode := h.1
    rcases step_enter e (.wait mode) a with ⟨-, he, -⟩ | ⟨-, he, -⟩ <;> rw [he]
    · exact ⟨rfl, rfl, fun _ => rfl⟩
    · exact .refl e
  | leave op slot => exact ⟨rfl, rfl, fun _ => rfl⟩
  | fire j status => rcases h with ⟨h, -⟩ | ⟨h, -⟩ <;> cases h
  | register j mode' | unregister j status =>
    exact ⟨rfl, e.size_modifySlot j _, fun i => e.fired?_modifySlot i j fun _ => rfl⟩
  | waiting j mode' =>
    simp only [EventCall.step]
    split <;> exact .refl e
  | _ => exact .refl e

end LogPipeline.Sync
