import LogPipeline.Proofs.Event.Turns
import Mathlib.Data.List.Induction

/-!
# Calls on one event

Any number of calls on one event, which take their steps in any order. After every run the
live slot has not fired, and every other slot that has not fired is about to be fired by
one call, which has retired it (`Parties.protocol_run`).
-/

namespace LogPipeline.Sync

/-- A call and the operation it was begun for. -/
structure Party where
  op : EventOp
  call : EventCall
  deriving DecidableEq, Repr

/-- An event and all calls on it so far, in the order in which they began. -/
structure Parties where
  event : BroadcastEvent
  parties : List Party
  deriving DecidableEq, Repr

inductive PartyMove where
  | begin (op : EventOp)
  | act (k : Nat)
  /-- The time of a timed wait runs out. -/
  | expire (k : Nat)
  deriving DecidableEq, Repr

namespace Parties

def new : Parties := ⟨.new, []⟩

def next (s : Parties) : PartyMove → Parties
  | .begin op => { s with parties := s.parties ++ [⟨op, .start op⟩] }
  | .act k =>
    match s.parties[k]? with
    | some p =>
      let (event, call) := p.call.step s.event
      ⟨event, s.parties.set k { p with call }⟩
    | none => s
  | .expire k =>
    match s.parties[k]? with
    | some p => { s with parties := s.parties.set k { p with call := p.call.expire s.event } }
    | none => s

def run (ms : List PartyMove) : Parties := ms.foldl next new

theorem run_concat (ms : List PartyMove) (m : PartyMove) : run (ms ++ [m]) = (run ms).next m := by
  simp [run]

/-- The `k`-th call is one for an operation, and has come so far. -/
def At (s : Parties) (k : Nat) (op : EventOp) (c : EventCall) : Prop :=
  s.parties[k]? = some ⟨op, c⟩

/-! ## Moves -/

theorem next_act {s : Parties} {k : Nat} {op : EventOp} {c : EventCall} (h : s.At k op c) :
    (s.next (.act k)).event = (c.step s.event).1 ∧ (s.next (.act k)).At k op (c.step s.event).2 := by
  obtain ⟨hlt, -⟩ := List.getElem?_eq_some_iff.1 h
  unfold At at h ⊢
  simp only [next, h, List.getElem?_set_self hlt]
  exact ⟨trivial, trivial⟩

/-- Only a step of a call changes the event. -/
theorem next_event (s : Parties) (m : PartyMove) :
    (s.next m).event = s.event ∨ ∃ k op c, m = .act k ∧ s.At k op c ∧
      (s.next m).event = (c.step s.event).1 := by
  cases m with
  | begin op => exact .inl rfl
  | act k =>
    cases hk : s.parties[k]? with
    | none => exact .inl (by simp only [next, hk])
    | some p => exact .inr ⟨k, p.op, p.call, rfl, hk, (next_act hk).1⟩
  | expire k =>
    left
    simp only [next]
    split <;> rfl

/-- A call stays where it is while it is not its turn. -/
theorem at_of_ne {s : Parties} {m : PartyMove} {k : Nat} {op : EventOp} {c : EventCall}
    (h : s.At k op c) (hact : m ≠ .act k) (hexpire : m ≠ .expire k) : (s.next m).At k op c := by
  unfold At at h ⊢
  obtain ⟨hlt, -⟩ := List.getElem?_eq_some_iff.1 h
  cases m with
  | begin op => simpa only [next, List.getElem?_append_left hlt] using h
  | act j =>
    simp only [next]
    split
    · rwa [List.getElem?_set_ne (by simpa using hact)]
    · exact h
  | expire j =>
    simp only [next]
    split
    · rwa [List.getElem?_set_ne (by simpa using hexpire)]
    · exact h

theorem next_expire {s : Parties} {k : Nat} {op : EventOp} {c : EventCall} (h : s.At k op c) :
    (s.next (.expire k)).At k op (c.expire s.event) := by
  obtain ⟨hlt, -⟩ := List.getElem?_eq_some_iff.1 h
  unfold At at h ⊢
  simp only [next, h, List.getElem?_set_self hlt]

/-- A call has just begun, or it was there before, and has taken a step only if it was its
turn. -/
theorem at_next {s : Parties} {m : PartyMove} {k : Nat} {op : EventOp} {c' : EventCall}
    (h : (s.next m).At k op c') :
    m = .begin op ∧ k = s.parties.length ∧ c' = .start op ∨
      ∃ c, s.At k op c ∧ (m ≠ .act k ∧ c' = c ∨ m = .act k ∧ c' = (c.step s.event).2 ∨
        m = .expire k ∧ c' = c.expire s.event) := by
  cases hk : s.parties[k]? with
  | some p =>
    right
    by_cases hact : m = .act k
    · subst hact
      cases (next_act hk).2.symm.trans h
      exact ⟨p.call, hk, .inr (.inl ⟨rfl, rfl⟩)⟩
    · by_cases hexpire : m = .expire k
      · subst hexpire
        cases (next_expire hk).symm.trans h
        exact ⟨p.call, hk, .inr (.inr ⟨rfl, rfl⟩)⟩
      · cases (at_of_ne hk hact hexpire).symm.trans h
        exact ⟨p.call, hk, .inl ⟨hact, rfl⟩⟩
  | none =>
    left
    have hge := List.getElem?_eq_none_iff.1 hk
    unfold At at h
    cases m with
    | begin op' =>
      simp only [next, List.getElem?_append_right hge, List.getElem?_singleton] at h
      split at h
      · cases h
        exact ⟨rfl, by omega, rfl⟩
      · cases h
    | act j | expire j =>
      simp only [next] at h
      split at h
      · rw [List.getElem?_eq_none (by simpa using hge)] at h
        cases h
      · rw [hk] at h
        cases h

/-- Some call has come so far. -/
def Calls (s : Parties) (c : EventCall) : Prop := ∃ k op, s.At k op c

/-- A call whose turn it is not stays where it is, or comes to the end of its time. -/
theorem stays_of_ne {s : Parties} {m : PartyMove} {k : Nat} {op : EventOp} {c : EventCall}
    (h : s.At k op c) (hact : m ≠ .act k) : Stays s.event (s.next m).Calls c := by
  by_cases hexpire : m = .expire k
  · subst hexpire
    exact .inr ⟨k, op, next_expire h⟩
  · exact .inl ⟨k, op, at_of_ne h hact hexpire⟩

theorem turn_next (s : Parties) (m : PartyMove) :
    Turn s.event (s.next m).event s.Calls (s.next m).Calls where
  step := by
    by_cases hact : ∃ k op c, m = .act k ∧ s.At k op c
    · obtain ⟨k, op, c, rfl, hk⟩ := hact
      obtain ⟨he, hnext⟩ := next_act hk
      refine .inr ⟨c, ⟨k, op, hk⟩, he, .inr ⟨k, op, hnext⟩, fun d ⟨j, o, hj⟩ hne => ?_⟩
      refine stays_of_ne hj fun hm => ?_
      cases PartyMove.act.inj hm
      cases hk.symm.trans hj
      exact hne rfl
    · refine .inl ⟨?_, fun d ⟨j, o, hj⟩ => stays_of_ne hj fun hm => hact ⟨j, o, d, hm, hj⟩⟩
      exact (s.next_event m).resolve_right fun ⟨k, op, c, hm, hk, _⟩ => hact ⟨k, op, c, hm, hk⟩
  origin d := by
    rintro ⟨k, op, hd⟩
    rcases at_next hd with ⟨-, -, rfl⟩ | ⟨c, hc, ⟨-, rfl⟩ | ⟨-, rfl⟩ | ⟨-, rfl⟩⟩
    · exact .inl ⟨op, rfl⟩
    · exact .inr ⟨d, ⟨k, op, hc⟩, .inl rfl⟩
    · exact .inr ⟨c, ⟨k, op, hc⟩, .inr (.inl rfl)⟩
    · exact .inr ⟨c, ⟨k, op, hc⟩, .inr (.inr rfl)⟩

/-! ## Who is where -/

/-- The calls that are counted among the waiters of a slot. -/
def registered (s : Parties) (i : SlotId) : Nat := s.parties.countP fun p => p.call.isRegistered i

/-- The live slot has not fired; a slot that was live and has not fired is about to be
fired by one call; and all slots count their waiters. -/
structure Protocol (s : Parties) : Prop where
  serves : ∀ k op c, s.At k op c → c.Serves op
  live : ∀ i, s.event.live = some i → i < s.event.slots.size ∧ s.event.fired? i = none
  firing : ∀ k op c i, s.At k op c → c.Fires i →
    i < s.event.slots.size ∧ s.event.fired? i = none ∧ s.event.live ≠ some i
  one : ∀ k op c k' op' c' i, s.At k op c → c.Fires i → s.At k' op' c' → c'.Fires i → k = k'
  slots : Slots s.event s.Calls
  counted : ∀ i, s.event.waitersAt i = s.registered i

theorem size_next (s : Parties) (m : PartyMove) :
    s.event.slots.size ≤ (s.next m).event.slots.size := by
  rcases s.next_event m with he | ⟨k, op, c, -, -, he⟩
  · exact Nat.le_of_eq (by rw [he])
  · rw [he]
    exact EventCall.size_step _ _

theorem live_of_next {s : Parties} {m : PartyMove} {i : SlotId}
    (h : (s.next m).event.live = some i) : s.event.live = some i ∨
      i = s.event.slots.size ∧ i < (s.next m).event.slots.size ∧
        (s.next m).event.fired? i = none := by
  rcases s.next_event m with he | ⟨k, op, c, -, -, he⟩
  · exact .inl (he ▸ h)
  · rw [he] at h ⊢
    exact EventCall.live_of_step h

/-- A slot fires only by a step of a call that is about to fire it. -/
theorem fired?_next {s : Parties} (m : PartyMove) {i : SlotId} (hlt : i < s.event.slots.size) :
    (s.next m).event.fired? i = s.event.fired? i ∨
      ∃ k op status, m = .act k ∧ s.At k op (.fire i status) := by
  rcases s.next_event m with he | ⟨k, op, c, rfl, hk, he⟩
  · exact .inl (by rw [he])
  · rcases EventCall.fired?_step c hlt with hsame | ⟨status, rfl⟩
    · exact .inl (by rw [he, hsame])
    · exact .inr ⟨k, op, status, rfl, hk⟩

/-- A call is about to fire a slot if it was before, or if it has just retired it. -/
theorem fires_of_next {s : Parties} {m : PartyMove} {k : Nat} {op : EventOp} {c' : EventCall}
    {i : SlotId} (hk : (s.next m).At k op c') (h : c'.Fires i) :
    (∃ c, s.At k op c ∧ c.Fires i ∧ ∀ status, m = .act k → c ≠ .fire i status) ∨
      ∃ o a, m = .act k ∧ s.At k op (.enter o a) ∧ s.event.lock = .free ∧
        s.event.live = some i ∧ (o = .broadcast ∨ o = .close) := by
  rcases at_next hk with ⟨-, -, rfl⟩ | ⟨c, hc, ⟨hm, rfl⟩ | ⟨rfl, rfl⟩ | ⟨rfl, rfl⟩⟩
  · exact h.elim
  · exact .inl ⟨c', hc, h, fun _ heq => (hm heq).elim⟩
  · rcases EventCall.fires_of_step h with ⟨hfires, -, hne⟩ | ⟨o, a, rfl, hlock, hlive, ho⟩
    · exact .inl ⟨c, hc, hfires, fun status _ => hne status⟩
    · exact .inr ⟨o, a, rfl, hc, hlock, hlive, ho⟩
  · refine .inl ⟨c, hc, ?_, nofun⟩
    rcases EventCall.expire_cases s.event c with heq | ⟨j, rfl, heq⟩ <;> rw [heq] at h
    · exact h
    · exact h.elim

/-- A call that is at another point changes the count by what it was and what it is. -/
theorem countP_set {s : Parties} {k : Nat} {op : EventOp} {c : EventCall} (h : s.At k op c)
    (c' : EventCall) (i : SlotId) :
    (s.parties.set k ⟨op, c'⟩).countP (fun p => p.call.isRegistered i) + (c.isRegistered i).toNat =
      s.registered i + (c'.isRegistered i).toNat := by
  obtain ⟨hlt, hget⟩ := List.getElem?_eq_some_iff.1 h
  have hle : (c.isRegistered i).toNat ≤ s.registered i := by
    cases hc : c.isRegistered i with
    | false => exact Nat.zero_le _
    | true => exact List.countP_pos_iff.2 ⟨_, List.mem_of_getElem? h, hc⟩
  have htoNat : ∀ b : Bool, (if b = true then 1 else 0) = b.toNat := by decide
  rw [List.countP_set hlt, hget, htoNat, htoNat]
  unfold registered at hle ⊢
  dsimp only
  omega

/-- A slot counts the calls that are registered on it. -/
theorem Protocol.counted_next {s : Parties} (h : s.Protocol) (m : PartyMove) (i : SlotId) :
    (s.next m).event.waitersAt i = (s.next m).registered i := by
  have hbefore := h.counted i
  cases m with
  | begin op => simpa [next, registered, EventCall.isRegistered, EventCall.start] using hbefore
  | act k =>
    cases hk : s.parties[k]? with
    | none => simpa only [next, hk] using hbefore
    | some p =>
      have hk : s.At k p.op p.call := hk
      have hstep := p.call.waitersAt_step s.event i (h.slots.known p.call · ⟨k, p.op, hk⟩) fun hc => by
        rw [hbefore]
        exact List.countP_pos_iff.2 ⟨p, List.mem_of_getElem? hk, hc⟩
      have hcount := countP_set hk (p.call.step s.event).2 i
      have hnext : (s.next (.act k)).registered i =
          (s.parties.set k ⟨p.op, (p.call.step s.event).2⟩).countP
            fun p => p.call.isRegistered i := by
        unfold At at hk
        simp only [next, hk, registered]
      rw [(next_act hk).1, hnext]
      omega
  | expire k =>
    cases hk : s.parties[k]? with
    | none => simpa only [next, hk] using hbefore
    | some p =>
      have hk : s.At k p.op p.call := hk
      have hcount := countP_set hk (p.call.expire s.event) i
      have hsame : (p.call.expire s.event).isRegistered i = p.call.isRegistered i := by
        rcases p.call.expire_cases s.event with heq | ⟨j, hc, heq⟩
        · rw [heq]
        · rw [heq, hc]
          rfl
      rw [hsame] at hcount
      unfold At at hk
      simp only [next, hk, registered]
      exact hbefore.trans (Nat.add_right_cancel hcount).symm

theorem live_of_new {s : Parties} {m : PartyMove} {i : SlotId} (hge : s.event.slots.size ≤ i)
    (hlt : i < (s.next m).event.slots.size) : (s.next m).event.live = some i := by
  rcases s.next_event m with he | ⟨k, op, c, -, -, he⟩ <;> rw [he] at hlt ⊢
  · exact (Nat.lt_irrefl _ (Nat.lt_of_lt_of_le hlt hge)).elim
  · exact EventCall.live_of_new hge hlt

namespace Protocol

variable {s : Parties}

theorem next (h : s.Protocol) (m : PartyMove) : (s.next m).Protocol where
  serves k op c' hk := by
    rcases at_next hk with ⟨-, -, rfl⟩ | ⟨c, hc, ⟨-, rfl⟩ | ⟨-, rfl⟩ | ⟨-, rfl⟩⟩
    · exact EventCall.serves_start op
    · exact h.serves k op c' hc
    · exact (h.serves k op c hc).step _
    · exact (h.serves k op c hc).expire _
  live i hi := by
    rcases live_of_next hi with hlive | ⟨-, hlt, hnone⟩
    · obtain ⟨hlt, hnone⟩ := h.live i hlive
      refine ⟨Nat.lt_of_lt_of_le hlt (s.size_next m), ?_⟩
      rcases fired?_next m hlt with hsame | ⟨k, op, status, -, hk⟩
      · exact hsame.trans hnone
      · exact ((h.firing k op _ i hk rfl).2.2 hlive).elim
    · exact ⟨hlt, hnone⟩
  firing k op c' i hk hfires := by
    have hcases := fires_of_next hk hfires
    have hlt : i < s.event.slots.size ∧ s.event.fired? i = none := by
      rcases hcases with ⟨c, hc, hfires', -⟩ | ⟨o, a, -, -, -, hlive, -⟩
      · obtain ⟨hlt, hnone, -⟩ := h.firing k op c i hc hfires'
        exact ⟨hlt, hnone⟩
      · exact h.live i hlive
    refine ⟨Nat.lt_of_lt_of_le hlt.1 (s.size_next m), ?_, fun hlive' => ?_⟩
    · rcases fired?_next m hlt.1 with hsame | ⟨j, op', status, rfl, hj⟩
      · exact hsame.trans hlt.2
      · rcases hcases with ⟨c, hc, hfires', hne⟩ | ⟨o, a, -, -, -, hlive, -⟩
        · obtain rfl := h.one k op c j op' _ i hc hfires' hj rfl
          cases hc.symm.trans hj
          exact (hne status rfl rfl).elim
        · exact ((h.firing j op' _ i hj rfl).2.2 hlive).elim
    · rcases live_of_next hlive' with hlive | ⟨rfl, -⟩
      · rcases hcases with ⟨c, hc, hfires', -⟩ | ⟨o, a, rfl, hk', hlock, -, ho⟩
        · exact (h.firing k op c i hc hfires').2.2 hlive
        · rw [(next_act hk').1] at hlive'
          exact EventCall.live_ne_of_retired hlt.1 hlock ho hlive'
      · exact Nat.lt_irrefl _ hlt.1
  one k op c k' op' c' i hk hfires hk' hfires' := by
    rcases fires_of_next hk hfires with ⟨d, hd, hbefore, -⟩ | ⟨o, a, rfl, -, -, hlive, -⟩
    · rcases fires_of_next hk' hfires' with ⟨d', hd', hbefore', -⟩ | ⟨o', a', -, -, -, hlive, -⟩
      · exact h.one k op d k' op' d' i hd hbefore hd' hbefore'
      · exact ((h.firing k op d i hd hbefore).2.2 hlive).elim
    · rcases fires_of_next hk' hfires' with ⟨d', hd', hbefore', -⟩ | ⟨o', a', hm, -⟩
      · exact ((h.firing k' op' d' i hd' hbefore').2.2 hlive).elim
      · exact PartyMove.act.inj hm
  slots := h.slots.turn (s.turn_next m)
  counted := h.counted_next m

end Protocol

theorem not_at_new {k : Nat} {op : EventOp} {c : EventCall} : ¬new.At k op c := by
  simp [At, new]

theorem protocol_new : new.Protocol where
  serves k op c h := (not_at_new h).elim
  live i hi := by
    obtain rfl : 0 = i := Option.some.inj hi
    exact ⟨Nat.one_pos, rfl⟩
  firing k op c i h := (not_at_new h).elim
  one k op c k' op' c' i h := (not_at_new h).elim
  slots := slots_new fun c ⟨_, _, h⟩ => not_at_new h
  counted i := by
    cases i <;> rfl

theorem protocol_run (ms : List PartyMove) : (run ms).Protocol := by
  induction ms using List.reverseRecOn with
  | nil => exact protocol_new
  | append_singleton ms m ih =>
    rw [run_concat]
    exact ih.next m

end Parties

end LogPipeline.Sync
