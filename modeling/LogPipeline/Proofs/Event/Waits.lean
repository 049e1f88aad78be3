import LogPipeline.Proofs.Event.Calls

/-!
# What a wait goes through

A wait that finds a live slot knows it to the end (`EventCall.knows_of_step`), is counted
among its waiters from one step to another (`EventCall.waitersAt_step`), and replies what
the slot showed when it looked for the last time (`EventCall.waitReply_of_step`). Once the
slot has fired, each of its turns brings it nearer to that reply
(`EventCall.Attends.turnsLeft_step`).
-/

namespace LogPipeline.Sync

namespace BroadcastEvent

/-- The parties registered on a slot. -/
def waitersAt (e : BroadcastEvent) (i : SlotId) : Nat := (e.slots[i]?).elim 0 (·.waiters)

theorem liveWaiters_eq (e : BroadcastEvent) : e.liveWaiters = e.live.elim 0 e.waitersAt := by
  unfold liveWaiters
  cases e.live <;> rfl

theorem waitersAt_arm (e : BroadcastEvent) (i : SlotId) : e.arm.waitersAt i = e.waitersAt i := by
  simp only [waitersAt, arm, Array.getElem?_push]
  split
  · next h => simp [h, Slot.fresh]
  · rfl

theorem waitersAt_fire (e : BroadcastEvent) (i j : SlotId) (status : WaitStatus) :
    (e.fire j status).waitersAt i = e.waitersAt i := by
  simp only [waitersAt, fire, modifySlot, Array.getElem?_modify]
  split
  · cases e.slots[i]? <;> rfl
  · rfl

theorem waitersAt_modifySlot (e : BroadcastEvent) {i j : SlotId} (hj : j < e.slots.size)
    (f : Slot → Slot) : (e.modifySlot j f).waitersAt i =
      if j = i then (f e.slots[j]).waiters else e.waitersAt i := by
  simp only [waitersAt, modifySlot, Array.getElem?_modify]
  split
  · next h =>
    subst h
    simp [Array.getElem?_eq_getElem hj]
  · rfl

theorem waitersAt_eq (e : BroadcastEvent) {i : SlotId} (hi : i < e.slots.size) :
    e.waitersAt i = e.slots[i].waiters := by
  simp [waitersAt, Array.getElem?_eq_getElem hi]

end BroadcastEvent

/-- How an operation that retires the live slot fires it. -/
def EventOp.status? : EventOp → Option WaitStatus
  | .broadcast => some .signaled
  | .close => some .closed
  | _ => none

namespace EventCall

/-- Whether a call is counted among the waiters of a slot. -/
def isRegistered (i : SlotId) : EventCall → Bool
  | .waiting j _ | .unregister j _ => j = i
  | _ => false

/-- A call that waits on a slot, or is about to or has done so. -/
def Knows (i : SlotId) (c : EventCall) : Prop := c.Holds i ∨ ∃ status, c = .unregister i status

/-- A call knows a slot if it did before, or if it has just found it live. -/
theorem knows_of_step {e : BroadcastEvent} {c : EventCall} {i : SlotId}
    (h : (c.step e).2.Knows i) : c.Knows i ∨ ∃ mode a, c = .enter (.wait mode) a ∧
      e.lock = .free ∧ e.live = some i := by
  rcases h with h | ⟨status, h⟩
  · exact (holds_of_step h).imp_left .inl
  · cases c with
    | waiting j mode =>
      simp only [step] at h
      split at h
      · cases h
        exact .inl (.inl rfl)
      · cases h
    | enter op a =>
      rcases step_enter e op a with ⟨-, -, hc⟩ | ⟨-, -, hc | ⟨a', hc⟩⟩ <;> rw [hc] at h <;> cases h
    | leave op slot =>
      cases op with
      | wait mode => cases slot <;> cases mode <;> cases h
      | _ => cases slot <;> cases h
    | _ => cases h

/-- The end of its time ends a timed wait that has not been woken, and no other call. -/
theorem expire_cases (e : BroadcastEvent) (c : EventCall) :
    c.expire e = c ∨ ∃ i, c = .waiting i .timed ∧ c.expire e = .unregister i (e.fired? i) := by
  unfold expire
  split
  · next i => exact .inr ⟨i, rfl, rfl⟩
  · exact .inl rfl

theorem knows_of_expire {e : BroadcastEvent} {c : EventCall} {i : SlotId}
    (h : (c.expire e).Knows i) : c.Knows i := by
  rcases expire_cases e c with heq | ⟨j, rfl, heq⟩ <;> rw [heq] at h
  · exact h
  · rcases h with h | ⟨status, h⟩
    · exact h.elim
    · cases h
      exact .inl rfl

/-- A wait that knows a slot, or has ended and says what it has seen of one. -/
def Attends (i : SlotId) (c : EventCall) : Prop :=
  c.Knows i ∨ ∃ fired, c = .finished (waitReply fired)

theorem Attends.step {c : EventCall} {i : SlotId} (h : c.Attends i) (e : BroadcastEvent) :
    (c.step e).2.Attends i := by
  rcases h with (h | ⟨fired, rfl⟩) | ⟨fired, rfl⟩
  · unfold Holds at h
    split at h
    · next mode j => cases mode <;> exact .inl (.inl h)
    · exact .inr ⟨_, rfl⟩
    · exact .inl (.inl h)
    · simp only [EventCall.step]
      split
      · exact .inl (.inr ⟨_, by rw [h]⟩)
      · exact .inl (.inl h)
    · exact h.elim
  · exact .inr ⟨fired, rfl⟩
  · exact .inr ⟨fired, rfl⟩

theorem Attends.expire {c : EventCall} {i : SlotId} (h : c.Attends i) (e : BroadcastEvent) :
    (c.expire e).Attends i := by
  rcases expire_cases e c with heq | ⟨j, rfl, heq⟩ <;> rw [heq]
  · exact h
  · rcases h with (rfl | ⟨fired, hc⟩) | ⟨fired, hc⟩
    · exact .inl (.inr ⟨_, rfl⟩)
    · cases hc
    · cases hc

/-- The turns that a wait still takes when its slot has fired. -/
def turnsLeft : EventCall → Nat
  | .leave .. => 4
  | .register .. => 3
  | .waiting .. => 2
  | .poll _ | .unregister .. => 1
  | .enter .. | .fire .. | .finished _ => 0

theorem turnsLeft_le (c : EventCall) : c.turnsLeft ≤ 4 := by
  cases c <;> simp [turnsLeft]

theorem Attends.turnsLeft_step {e : BroadcastEvent} {c : EventCall} {i : SlotId}
    {status : WaitStatus} (h : c.Attends i) (hfired : e.fired? i = some status) :
    (c.step e).2.turnsLeft ≤ c.turnsLeft - 1 := by
  rcases h with (h | ⟨fired, rfl⟩) | ⟨fired, rfl⟩
  · unfold Holds at h
    split at h
    · next mode j => cases mode <;> simp [EventCall.step, afterLock, turnsLeft]
    · exact Nat.le_refl _
    · exact Nat.le_refl _
    · subst h
      simp [EventCall.step, hfired, turnsLeft]
    · exact h.elim
  · exact Nat.le_refl _
  · exact Nat.le_refl _

theorem turnsLeft_expire (e : BroadcastEvent) (c : EventCall) :
    (c.expire e).turnsLeft ≤ c.turnsLeft := by
  rcases expire_cases e c with heq | ⟨j, rfl, heq⟩
  · exact Nat.le_of_eq (congrArg turnsLeft heq)
  · rw [heq]
    exact Nat.le_succ 1

theorem Attends.finished {c : EventCall} {i : SlotId} (h : c.Attends i) (hleft : c.turnsLeft = 0) :
    ∃ reply, c = .finished reply := by
  rcases h with (h | ⟨fired, rfl⟩) | ⟨fired, rfl⟩
  · unfold Holds at h
    split at h <;> first | cases hleft | exact h.elim
  · cases hleft
  · exact ⟨_, rfl⟩

theorem waitReply_inj {status status' : Option WaitStatus} (h : waitReply status = waitReply status') :
    status = status' := by
  cases status <;> cases status' <;> cases h <;> rfl

/-- How a wait ends: no slot was live, or it polls the slot, or it has been registered. -/
theorem waitReply_of_step {e : BroadcastEvent} {c : EventCall} {status : Option WaitStatus}
    (h : (c.step e).2 = .finished (waitReply status)) :
    c = .finished (waitReply status) ∨ (∃ mode, c = .leave (.wait mode) none ∧ status = some .closed) ∨
      ∃ i, c = .poll i ∧ e.fired? i = status ∨ c = .unregister i status := by
  cases c with
  | enter op a =>
    rcases step_enter e op a with ⟨-, -, hc⟩ | ⟨-, -, hc | ⟨a', hc⟩⟩ <;> rw [hc] at h
    · cases h
    · cases status <;> cases h
    · cases h
  | leave op slot =>
    cases op with
    | wait mode =>
      cases slot with
      | none =>
        have hreply : waitReply (some .closed) = waitReply status := EventCall.finished.inj h
        exact .inr (.inl ⟨mode, rfl, (waitReply_inj hreply).symm⟩)
      | some j => cases mode <;> cases h
    | _ => cases slot <;> cases status <;> cases h
  | fire j s => cases status <;> cases h
  | poll j => exact .inr (.inr ⟨j, .inl ⟨rfl, waitReply_inj (EventCall.finished.inj h)⟩⟩)
  | register j mode => cases h
  | waiting j mode =>
    simp only [step] at h
    split at h <;> cases h
  | unregister j s =>
    obtain rfl := waitReply_inj (EventCall.finished.inj h)
    exact .inr (.inr ⟨j, .inr rfl⟩)
  | finished reply => exact .inl h

theorem unregister_of_step {e : BroadcastEvent} {c : EventCall} {i : SlotId}
    {status : Option WaitStatus} (h : (c.step e).2 = .unregister i status) :
    (∃ mode, c = .waiting i mode) ∧ e.fired? i = status ∧ status.isSome := by
  cases c with
  | enter op a =>
    rcases step_enter e op a with ⟨-, -, hc⟩ | ⟨-, -, hc | ⟨a', hc⟩⟩ <;> rw [hc] at h <;> cases h
  | leave op slot =>
    cases op with
    | wait mode => cases slot <;> cases mode <;> cases h
    | _ => cases slot <;> cases h
  | waiting j mode =>
    simp only [step] at h
    split at h
    · next hfired =>
      cases h
      exact ⟨⟨mode, rfl⟩, hfired, rfl⟩
    · cases h
  | _ => cases h

theorem unregister_of_expire {e : BroadcastEvent} {c : EventCall} {i : SlotId}
    {status : Option WaitStatus} (h : c.expire e = .unregister i status) :
    c = .unregister i status ∨ c = .waiting i .timed ∧ e.fired? i = status := by
  rcases expire_cases e c with heq | ⟨j, rfl, heq⟩ <;> rw [heq] at h
  · exact .inl h
  · cases h
    exact .inr ⟨rfl, rfl⟩

theorem finished_of_expire {e : BroadcastEvent} {c : EventCall} {reply : EventReply}
    (h : c.expire e = .finished reply) : c = .finished reply := by
  rcases expire_cases e c with heq | ⟨j, rfl, heq⟩ <;> rw [heq] at h
  · exact h
  · cases h

theorem leave_of_step {e : BroadcastEvent} {c : EventCall} {op : EventOp} {slot : Option SlotId}
    (h : (c.step e).2 = .leave op slot) :
    ∃ a, c = .enter op a ∧ e.lock = .free ∧ (e.exchange op).2 = slot := by
  rcases step_live e c with ⟨-, hne⟩ | ⟨op', a, rfl, -, hleave⟩
  · exact (hne op slot h).elim
  · rcases step_enter e op' a with ⟨hlock, -, -⟩ | ⟨-, -, hc | ⟨a', hc⟩⟩
    · obtain ⟨rfl, hslot⟩ := EventCall.leave.inj (hleave.symm.trans h)
      exact ⟨a, rfl, hlock, hslot⟩
    · rw [hc] at h
      cases h
    · rw [hc] at h
      cases h

/-- A call that has been at the lock is not there again. -/
theorem enter_ne_of_step {e : BroadcastEvent} {c : EventCall} (h : ∀ op a, c ≠ .enter op a)
    (op : EventOp) (a : Acquisition) : (c.step e).2 ≠ .enter op a := by
  cases c with
  | enter op' a' => exact (h op' a' rfl).elim
  | leave op' slot =>
    cases op' with
    | wait mode => cases slot <;> cases mode <;> rintro ⟨⟩
    | _ => cases slot <;> rintro ⟨⟩
  | waiting i mode =>
    simp only [step]
    split <;> rintro ⟨⟩
  | _ => rintro ⟨⟩

theorem enter_ne_of_expire {e : BroadcastEvent} {c : EventCall} (h : ∀ op a, c ≠ .enter op a)
    (op : EventOp) (a : Acquisition) : c.expire e ≠ .enter op a := by
  rcases expire_cases e c with heq | ⟨j, rfl, heq⟩ <;> rw [heq]
  · exact h op a
  · nofun

/-- Where the number of waiters is read. -/
theorem waiters_of_step {e : BroadcastEvent} {c : EventCall} {n : Nat}
    (h : (c.step e).2 = .finished (.waiters n)) :
    c = .finished (.waiters n) ∨ ∃ slot, c = .leave .waiters slot ∧ e.liveWaiters = n := by
  cases c with
  | enter op a =>
    rcases step_enter e op a with ⟨-, -, hc⟩ | ⟨-, -, hc | ⟨a', hc⟩⟩ <;> rw [hc] at h <;> cases h
  | leave op slot =>
    cases op with
    | wait mode => cases slot <;> cases mode <;> cases h
    | waiters => exact .inr ⟨slot, rfl, EventReply.waiters.inj (EventCall.finished.inj h)⟩
    | _ => cases slot <;> cases h
  | fire j s => cases h
  | poll j =>
    simp only [step] at h
    cases hfired : e.fired? j <;> rw [hfired] at h <;> cases h
  | register j mode => cases h
  | waiting j mode =>
    simp only [step] at h
    split at h <;> cases h
  | unregister j status => cases status <;> cases h
  | finished reply => exact .inl h

/-- A step of a call counts the call among the waiters of a slot, or no longer. -/
theorem waitersAt_step (e : BroadcastEvent) (c : EventCall) (i : SlotId)
    (hlt : ∀ j, c.Knows j → j < e.slots.size) (hpos : c.isRegistered i → 0 < e.waitersAt i) :
    (c.step e).1.waitersAt i + (c.isRegistered i).toNat =
      e.waitersAt i + ((c.step e).2.isRegistered i).toNat := by
  cases c with
  | enter op a =>
    have hexchange : (e.exchange op).1.waitersAt i = e.waitersAt i := by
      cases op with
      | broadcast => exact e.waitersAt_arm i
      | reopen =>
        simp only [BroadcastEvent.exchange]
        split
        · exact e.waitersAt_arm i
        · rfl
      | _ => rfl
    rcases step_enter e op a with ⟨-, he, hc⟩ | ⟨-, he, hc | ⟨a', hc⟩⟩ <;> rw [he, hc]
    · exact congrArg (· + 0) hexchange
    · rfl
    · rfl
  | leave op slot =>
    cases op with
    | wait mode => cases slot <;> cases mode <;> rfl
    | _ => cases slot <;> rfl
  | fire j status => exact congrArg (· + 0) (e.waitersAt_fire i j status)
  | register j mode =>
    have hj := hlt j (.inl rfl)
    simp only [step, e.waitersAt_modifySlot hj, isRegistered]
    by_cases hji : j = i
    · subst hji
      simp [e.waitersAt_eq hj]
    · simp [hji]
  | waiting j mode =>
    simp only [step]
    split <;> rfl
  | unregister j status =>
    have hj := hlt j (.inr ⟨status, rfl⟩)
    simp only [step, e.waitersAt_modifySlot hj, isRegistered]
    by_cases hji : j = i
    · subst hji
      have hcounted := hpos (by simp [isRegistered])
      rw [e.waitersAt_eq hj] at hcounted ⊢
      simp
      omega
    · simp [hji]
  | poll j => rfl
  | finished reply => rfl

end EventCall

end LogPipeline.Sync
