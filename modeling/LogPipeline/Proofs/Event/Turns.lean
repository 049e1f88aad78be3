import LogPipeline.Proofs.Event.Waits

/-!
# The slots of an event in use

Those who use an event are at calls on it, and take turns: from one state to the next one
call takes a step, and the others stay where they are or come to the end of their time
(`Turn`). A turn keeps what is known of the slots (`Slots.turn`): while the lock is held
a call is about to give it back, every slot that has not fired is live or about to be
fired by a call, and the slots that calls know are slots of the event.
-/

namespace LogPipeline.Sync

/-- A call that has got the lock gives it back with its next step. -/
theorem EventCall.lock_of_step {e : BroadcastEvent} {c : EventCall}
    (h : (c.step e).1.lock = .held) :
    e.lock = .held ∧ (∀ op slot, c ≠ .leave op slot) ∨
      ∃ op slot, (c.step e).2 = .leave op slot := by
  cases c with
  | enter op a =>
    rcases EventCall.step_enter e op a with ⟨-, -, hc⟩ | ⟨hheld, -⟩
    · exact .inr ⟨op, _, hc⟩
    · exact .inl ⟨hheld, fun op slot hc => by cases hc⟩
  | leave op slot => cases h
  | waiting i mode =>
    refine .inl ⟨?_, fun op slot hc => by cases hc⟩
    revert h
    simp only [EventCall.step]
    split <;> exact id
  | _ => exact .inl ⟨h, fun op slot hc => by cases hc⟩

variable {e e' : BroadcastEvent} {calls calls' : EventCall → Prop}

/-- What is known of the slots of an event that is used by some calls. -/
structure Slots (e : BroadcastEvent) (calls : EventCall → Prop) : Prop where
  held : e.lock = .held → ∃ op slot, calls (.leave op slot)
  live_lt : ∀ i, e.live = some i → i < e.slots.size
  unfired : ∀ i, i < e.slots.size → e.fired? i = none →
    e.live = some i ∨ ∃ c, calls c ∧ c.Fires i
  known : ∀ c i, calls c → c.Knows i → i < e.slots.size

theorem slots_new (h : ∀ c, ¬calls c) : Slots .new calls where
  held h := by cases h
  live_lt i hi := by
    cases hi
    exact Nat.one_pos
  unfired i hi _ := by
    obtain rfl : i = 0 := Nat.lt_one_iff.1 hi
    exact .inl rfl
  known c i hc := (h c hc).elim

/-- A call that stays where it is, or comes to the end of its time. -/
def Stays (e : BroadcastEvent) (calls' : EventCall → Prop) (d : EventCall) : Prop :=
  calls' d ∨ calls' (d.expire e)

/-- One call takes a step, or none, and the others stay; and where a call is, it has begun,
or has come to from where it was. -/
structure Turn (e e' : BroadcastEvent) (calls calls' : EventCall → Prop) : Prop where
  step : e' = e ∧ (∀ d, calls d → Stays e calls' d) ∨
    ∃ c, calls c ∧ e' = (c.step e).1 ∧
      ((∃ reply, (c.step e).2 = .finished reply) ∨ calls' (c.step e).2) ∧
      ∀ d, calls d → d ≠ c → Stays e calls' d
  origin : ∀ d, calls' d → (∃ op, d = .start op) ∨
    ∃ c, calls c ∧ (d = c ∨ d = (c.step e).2 ∨ d = c.expire e)

theorem Stays.fires {d : EventCall} (h : Stays e calls' d) {i : SlotId} (hd : d.Fires i) :
    ∃ c, calls' c ∧ c.Fires i := by
  rcases h with h | h
  · exact ⟨d, h, hd⟩
  · refine ⟨_, h, ?_⟩
    rcases d.expire_cases e with heq | ⟨j, rfl, -⟩
    · rwa [heq]
    · exact hd.elim

namespace Slots

theorem held_turn (h : Slots e calls) (t : Turn e e' calls calls') (hheld : e'.lock = .held) :
    ∃ op slot, calls' (.leave op slot) := by
  rcases t.step with ⟨rfl, hstay⟩ | ⟨c, -, rfl, hnext, hstay⟩
  · obtain ⟨op, slot, hleave⟩ := h.held hheld
    exact ⟨op, slot, (hstay _ hleave).elim id id⟩
  · rcases EventCall.lock_of_step hheld with ⟨hbefore, hne⟩ | ⟨op, slot, hleave⟩
    · obtain ⟨op, slot, hcall⟩ := h.held hbefore
      exact ⟨op, slot, (hstay _ hcall (Ne.symm (hne op slot))).elim id id⟩
    · rw [hleave] at hnext
      exact ⟨op, slot, hnext.resolve_left fun ⟨reply, hreply⟩ => by cases hreply⟩

theorem unfired_turn (h : Slots e calls) (t : Turn e e' calls calls') {i : SlotId}
    (hlt : i < e'.slots.size) (hnone : e'.fired? i = none) :
    e'.live = some i ∨ ∃ c, calls' c ∧ c.Fires i := by
  rcases t.step with ⟨rfl, hstay⟩ | ⟨c, -, rfl, hnext, hstay⟩
  · exact (h.unfired i hlt hnone).imp_right fun ⟨d, hd, hfires⟩ => (hstay d hd).fires hfires
  · -- if the call that takes the step is about to fire the slot, it goes on to do so
    have hself : (c.step e).2.Fires i → ∃ c, calls' c ∧ c.Fires i := fun hfires => by
      rcases hnext with ⟨reply, hreply⟩ | hcall
      · rw [hreply] at hfires
        exact hfires.elim
      · exact ⟨_, hcall, hfires⟩
    -- a slot that was there before is live or about to be fired, and a new one is live
    rcases Nat.lt_or_ge i e.slots.size with hi | hge
    · rcases h.unfired i hi (EventCall.unfired_of_step hi hnone) with hlive | ⟨d, hd, hfires⟩
      · exact (EventCall.live_or_fires hlive).imp_right hself
      · right
        by_cases hdc : d = c
        · subst hdc
          exact hself ((hfires.step hi).resolve_right fun hfired => hfired hnone)
        · exact (hstay d hd hdc).fires hfires
    · exact .inl (EventCall.live_of_new hge hlt)

theorem turn (h : Slots e calls) (t : Turn e e' calls calls') : Slots e' calls' := by
  have hsize : e.slots.size ≤ e'.slots.size := by
    rcases t.step with ⟨rfl, -⟩ | ⟨c, -, rfl, -⟩
    · exact Nat.le_refl _
    · exact EventCall.size_step e c
  refine ⟨h.held_turn t, fun i hi => ?_, fun i => h.unfired_turn t, fun d i hd hknows => ?_⟩
  · rcases t.step with ⟨rfl, -⟩ | ⟨c, -, rfl, -⟩
    · exact h.live_lt i hi
    · exact EventCall.live_lt_step h.live_lt hi
  · refine Nat.lt_of_lt_of_le ?_ hsize
    rcases t.origin d hd with ⟨op, rfl⟩ | ⟨c, hc, rfl | rfl | rfl⟩
    · rcases hknows with hknows | ⟨status, hstart⟩
      · exact hknows.elim
      · cases hstart
    · exact h.known d i hc hknows
    · rcases EventCall.knows_of_step hknows with hknows | ⟨-, -, -, -, hlive⟩
      · exact h.known c i hc hknows
      · exact h.live_lt i hlive
    · exact h.known c i hc (EventCall.knows_of_expire hknows)

end Slots

end LogPipeline.Sync
