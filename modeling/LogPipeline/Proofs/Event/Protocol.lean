import LogPipeline.Proofs.Event.Parties

/-!
# The protocol of an event

In every run of calls on an event a slot is retired by one call, which is the one to fire
it, once, and with its own status. A wait that has fetched a slot ends as the call that
retired the slot says, which did so after the wait had fetched it, unless the wait gives up
before the slot has fired; and a wait that is blocked waits for a slot that is live or
about to be fired (`every_run_keeps_protocol`).

What a call is at after a run comes from a move of the run: a call that is about to fire a
slot has retired it, one that knows a slot has fetched it (`Happens.of_at`).
-/

namespace LogPipeline.Sync.Parties

/-! ## What has happened -/

/-- The `n`-th move of a run is of a kind. -/
def Happens (ms : List PartyMove) (n : Nat) (P : Parties → PartyMove → Prop) : Prop :=
  ∃ m, ms[n]? = some m ∧ P (run (ms.take n)) m

section Happens

variable {ms : List PartyMove} {n : Nat} {P : Parties → PartyMove → Prop}

theorem Happens.lt (h : Happens ms n P) : n < ms.length := by
  obtain ⟨m, hm, -⟩ := h
  exact (List.getElem?_eq_some_iff.1 hm).1

theorem Happens.append (h : Happens ms n P) (ms' : List PartyMove) : Happens (ms ++ ms') n P := by
  have hlt := h.lt
  obtain ⟨m, hm, hP⟩ := h
  refine ⟨m, ?_, ?_⟩
  · rwa [List.getElem?_append_left hlt]
  · rwa [List.take_append_of_le_length (Nat.le_of_lt hlt)]

theorem happens_last {m : PartyMove} (h : P (run ms) m) : Happens (ms ++ [m]) ms.length P :=
  ⟨m, by simp, by simpa using h⟩

/-- What has happened in a beginning of a run has happened in the run. -/
theorem Happens.of_take {n' : Nat} (h : Happens (ms.take n') n P) : Happens ms n P := by
  have happend := h.append (ms.drop n')
  rwa [List.take_append_drop] at happend

end Happens

theorem run_take_succ {ms : List PartyMove} {n : Nat} {m : PartyMove} (h : ms[n]? = some m) :
    run (ms.take (n + 1)) = (run (ms.take n)).next m := by
  rw [List.take_add_one, h, ← run_concat]
  rfl

theorem take_eq_append (ms : List PartyMove) {n n' : Nat} (h : n ≤ n') :
    ms.take n' = ms.take n ++ (ms.take n').drop n := by
  conv => lhs; rw [← List.take_append_drop n (ms.take n'), List.take_take, Nat.min_eq_left h]

/-- A call retires a slot, which it will fire with a status. -/
def retires (k : Nat) (i : SlotId) (status : WaitStatus) (s : Parties) (m : PartyMove) : Prop :=
  m = .act k ∧ s.event.lock = .free ∧ s.event.live = some i ∧
    ∃ op a, s.At k op (.enter op a) ∧ op.status? = some status

/-- A call fires a slot. -/
def fires (k : Nat) (i : SlotId) (status : WaitStatus) (s : Parties) (m : PartyMove) : Prop :=
  m = .act k ∧ ∃ op, s.At k op (.fire i status)

/-- A wait fetches the live slot, or finds none. -/
def fetches (k : Nat) (slot : Option SlotId) (s : Parties) (m : PartyMove) : Prop :=
  m = .act k ∧ s.event.lock = .free ∧ s.event.live = slot ∧
    ∃ mode a, s.At k (.wait mode) (.enter (.wait mode) a)

/-- A wait looks for the last time whether its slot has fired: it is woken, it polls, or
its time runs out. -/
def looks (k : Nat) (i : SlotId) (fired : Option WaitStatus) (s : Parties) (m : PartyMove) : Prop :=
  s.event.fired? i = fired ∧
    (m = .act k ∧ (∃ mode, s.At k (.wait mode) (.waiting i mode)) ∧ fired.isSome ∨
      m = .act k ∧ s.At k (.wait .poll) (.poll i) ∨
      m = .expire k ∧ s.At k (.wait .timed) (.waiting i .timed))

/-- A call reads the number of waiters. -/
def counts (k : Nat) (n : Nat) (s : Parties) (m : PartyMove) : Prop :=
  m = .act k ∧ (∃ slot, s.At k .waiters (.leave .waiters slot)) ∧
    s.event.live.elim 0 s.registered = n

/-! ## Where a call has come from -/

/-- A call is at a point because a move has brought it there. -/
theorem Happens.of_at {k : Nat} {op : EventOp} {Q : EventCall → Prop}
    {P : Parties → PartyMove → Prop} (hstart : ¬Q (.start op))
    (hact : ∀ s c, s.Protocol → s.At k op c → Q (c.step s.event).2 → Q c ∨ P s (.act k))
    (hexpire : ∀ s c, s.Protocol → s.At k op c → Q (c.expire s.event) → Q c ∨ P s (.expire k))
    {ms : List PartyMove} {c : EventCall} (hk : (run ms).At k op c) (hc : Q c) :
    ∃ n, Happens ms n P := by
  induction ms using List.reverseRecOn generalizing c with
  | nil => exact (not_at_new hk).elim
  | append_singleton ms m ih =>
    have hprotocol := protocol_run ms
    have hcases : ∀ {c'}, (run ms).At k op c' → Q c' ∨ P (run ms) m →
        ∃ n, Happens (ms ++ [m]) n P := fun hc' h => by
      rcases h with hQ | hP
      · obtain ⟨n, hn⟩ := ih hc' hQ
        exact ⟨n, hn.append _⟩
      · exact ⟨_, happens_last hP⟩
    rw [run_concat] at hk
    rcases at_next hk with ⟨-, -, rfl⟩ | ⟨c', hc', ⟨-, rfl⟩ | ⟨rfl, rfl⟩ | ⟨rfl, rfl⟩⟩
    · exact (hstart hc).elim
    · exact hcases hc' (.inl hc)
    · exact hcases hc' (hact _ _ hprotocol hc' hc)
    · exact hcases hc' (hexpire _ _ hprotocol hc' hc)

/-- A call that is about to fire a slot has retired it. -/
theorem retires_of_fires {ms : List PartyMove} {k : Nat} {op : EventOp} {c : EventCall}
    {i : SlotId} (hk : (run ms).At k op c) (h : c.Fires i) :
    ∃ n status, op.status? = some status ∧ Happens ms n (retires k i status) := by
  have hcause : ∃ n, Happens ms n fun s m =>
      ∃ status, op.status? = some status ∧ retires k i status s m := by
    refine Happens.of_at (Q := EventCall.Fires i) id (fun s c hs hc hfires => ?_)
      (fun s c _ _ hfires => .inl ?_) hk h
    · rcases EventCall.fires_of_step hfires with ⟨hbefore, -⟩ | ⟨o, a, rfl, hlock, hlive, ho⟩
      · exact .inl hbefore
      · obtain rfl : o = op := (hs.serves k op _ hc).1
        have hstatus : ∃ status, o.status? = some status := by
          rcases ho with rfl | rfl
          · exact ⟨_, rfl⟩
          · exact ⟨_, rfl⟩
        obtain ⟨status, hstatus⟩ := hstatus
        exact .inr ⟨status, hstatus, rfl, hlock, hlive, o, a, hc, hstatus⟩
    · rcases EventCall.expire_cases s.event c with heq | ⟨j, rfl, heq⟩ <;> rw [heq] at hfires
      · exact hfires
      · exact hfires.elim
  obtain ⟨n, m, hm, status, hstatus, hretires⟩ := hcause
  exact ⟨n, status, hstatus, m, hm, hretires⟩

/-- The slot that a wait knows is one it has fetched. -/
theorem fetches_of_knows {ms : List PartyMove} {k : Nat} {op : EventOp} {c : EventCall}
    {i : SlotId} (hk : (run ms).At k op c) (h : c.Knows i) :
    ∃ n, Happens ms n (fetches k (some i)) := by
  refine Happens.of_at (Q := EventCall.Knows i) ?_ (fun s c hs hc hknows => ?_)
    (fun s c _ _ hknows => .inl (EventCall.knows_of_expire hknows)) hk h
  · rintro (hstart | ⟨status, hstart⟩)
    · exact hstart
    · cases hstart
  · rcases EventCall.knows_of_step hknows with hbefore | ⟨mode, a, rfl, hlock, hlive⟩
    · exact .inl hbefore
    · obtain rfl : .wait mode = op := (hs.serves k op _ hc).1
      exact .inr ⟨rfl, hlock, hlive, mode, a, hc⟩

/-- A wait that has got the lock has fetched the live slot, if there is one. -/
theorem fetches_of_leave {ms : List PartyMove} {k : Nat} {op : EventOp} {mode : WaitMode}
    {slot : Option SlotId} (hk : (run ms).At k op (.leave (.wait mode) slot)) :
    ∃ n, Happens ms n (fetches k slot) := by
  refine Happens.of_at (Q := (· = .leave (.wait mode) slot)) nofun (fun s c hs hc hleave => ?_)
    (fun s c _ _ hleave => .inl ?_) hk rfl
  · obtain ⟨a, rfl, hlock, hslot⟩ := EventCall.leave_of_step hleave
    obtain rfl : .wait mode = op := (hs.serves k op _ hc).1
    exact .inr ⟨rfl, hlock, hslot, mode, a, hc⟩
  · rcases EventCall.expire_cases s.event c with heq | ⟨j, rfl, heq⟩ <;> rw [heq] at hleave
    · exact hleave
    · cases hleave

/-- A wait that is past the lock has fetched the live slot, or has found none. -/
theorem fetches_of_wait {ms : List PartyMove} {k : Nat} {mode : WaitMode} {c : EventCall}
    (hk : (run ms).At k (.wait mode) c) (hc : ∀ a, c ≠ .enter (.wait mode) a) :
    ∃ n slot, Happens ms n (fetches k slot) := by
  have hcause : ∃ n, Happens ms n fun s m => ∃ slot, fetches k slot s m := by
    refine Happens.of_at (Q := fun c => ∀ a, c ≠ .enter (.wait mode) a) (fun h => h _ rfl)
      (fun s c hs hc hpast => ?_) (fun s c _ _ hpast => .inl fun a heq => ?_) hk hc
    · by_cases henter : ∃ a, c = .enter (.wait mode) a
      · obtain ⟨a, rfl⟩ := henter
        cases hlock : s.event.lock with
        | free => exact .inr ⟨_, rfl, hlock, rfl, mode, a, hc⟩
        | held =>
          -- a wait is never refused, so it has stayed at the lock
          obtain ⟨a', hstay⟩ := EventCall.enter_of_held hlock (hs.serves k _ _ hc).2
          exact (hpast a' hstay).elim
      · exact .inl fun a heq => henter ⟨a, heq⟩
    · subst heq
      exact hpast a rfl
  obtain ⟨n, m, hm, slot, hfetches⟩ := hcause
  exact ⟨n, slot, m, hm, hfetches⟩

/-- A wait that is about to end has seen what its slot showed. -/
theorem looks_of_unregister {ms : List PartyMove} {k : Nat} {op : EventOp} {i : SlotId}
    {fired : Option WaitStatus} (hk : (run ms).At k op (.unregister i fired)) :
    ∃ n, Happens ms n (looks k i fired) := by
  refine Happens.of_at (Q := (· = .unregister i fired)) nofun (fun s c hs hc hend => ?_)
    (fun s c hs hc hend => ?_) hk rfl
  · obtain ⟨⟨mode, rfl⟩, hfired, hsome⟩ := EventCall.unregister_of_step hend
    obtain rfl : op = .wait mode := hs.serves k op _ hc
    exact .inr ⟨hfired, .inl ⟨rfl, ⟨mode, hc⟩, hsome⟩⟩
  · rcases EventCall.unregister_of_expire hend with hbefore | ⟨rfl, hfired⟩
    · exact .inl hbefore
    · obtain rfl : op = .wait .timed := hs.serves k op _ hc
      exact .inr ⟨hfired, .inr (.inr ⟨rfl, hc⟩)⟩

/-- The reply of a wait: it has found no slot, or it has seen what its slot showed. -/
theorem looks_of_reply {ms : List PartyMove} {k : Nat} {op : EventOp}
    (fired : Option WaitStatus) (hk : (run ms).At k op (.finished (EventCall.waitReply fired))) :
    (fired = some .closed ∧ ∃ n, Happens ms n (fetches k none)) ∨
      ∃ n i, Happens ms n (looks k i fired) := by
  have hcause : ∃ n, Happens ms n fun s m =>
      (∃ mode, s.At k op (.leave (.wait mode) none) ∧ fired = some .closed) ∨
        ∃ i, s.At k op (.unregister i fired) ∨ looks k i fired s m := by
    refine Happens.of_at (Q := (· = .finished (EventCall.waitReply fired))) nofun
      (fun s c hs hc hend => ?_) (fun s c _ _ hend => .inl (EventCall.finished_of_expire hend)) hk rfl
    rcases EventCall.waitReply_of_step hend with
      hbefore | ⟨mode, rfl, hclosed⟩ | ⟨i, ⟨rfl, hfired⟩ | rfl⟩
    · exact .inl hbefore
    · exact .inr (.inl ⟨mode, hc, hclosed⟩)
    · obtain rfl : op = .wait .poll := hs.serves k op _ hc
      exact .inr (.inr ⟨i, .inr ⟨hfired, .inr (.inl ⟨rfl, hc⟩)⟩⟩)
    · exact .inr (.inr ⟨i, .inl hc⟩)
  obtain ⟨n, m, hm, ⟨mode, hleave, hclosed⟩ | ⟨i, hend | hlooks⟩⟩ := hcause
  · obtain ⟨n', hn'⟩ := fetches_of_leave hleave
    exact .inl ⟨hclosed, n', hn'.of_take⟩
  · obtain ⟨n', hn'⟩ := looks_of_unregister hend
    exact .inr ⟨n', i, hn'.of_take⟩
  · exact .inr ⟨n, i, m, hm, hlooks⟩

/-- The reply of a call for the number of waiters. -/
theorem counts_of_reply {ms : List PartyMove} {k : Nat} {op : EventOp} {w : Nat}
    (hk : (run ms).At k op (.finished (.waiters w))) : ∃ n, Happens ms n (counts k w) := by
  refine Happens.of_at (Q := (· = .finished (.waiters w))) nofun (fun s c hs hc hend => ?_)
    (fun s c _ _ hend => .inl (EventCall.finished_of_expire hend)) hk rfl
  rcases EventCall.waiters_of_step hend with hbefore | ⟨slot, rfl, hcount⟩
  · exact .inl hbefore
  · obtain rfl : .waiters = op := hs.serves k op _ hc
    refine .inr ⟨rfl, ⟨slot, hc⟩, ?_⟩
    rw [← hcount, BroadcastEvent.liveWaiters_eq]
    cases s.event.live with
    | none => rfl
    | some i => exact (hs.counted i).symm

/-! ## Retired and fired once -/

/-- A slot has fired if a call has fired it. -/
theorem fires_of_fired {ms : List PartyMove} {i : SlotId} {status : WaitStatus}
    (h : (run ms).event.fired? i = some status) : ∃ n k, Happens ms n (fires k i status) := by
  induction ms using List.reverseRecOn with
  | nil =>
    cases i <;> cases h
  | append_singleton ms m ih =>
    have hprotocol := protocol_run (ms ++ [m])
    rw [run_concat] at h hprotocol
    rcases Nat.lt_or_ge i (run ms).event.slots.size with hi | hge
    · rcases fired?_next m hi with hsame | ⟨k, op, status', rfl, hk⟩
      · obtain ⟨n, k, hn⟩ := ih (hsame.symm.trans h)
        exact ⟨n, k, hn.append _⟩
      · have hnone := ((protocol_run ms).firing k op _ i hk rfl).2.1
        have hfired := (run ms).event.fired?_fire_of_none hi hnone status'
        rw [(next_act hk).1] at h
        cases hfired.symm.trans h
        exact ⟨_, k, happens_last ⟨rfl, op, hk⟩⟩
    · -- a slot that the last move has armed has not fired
      have hnone := (hprotocol.live i (live_of_new hge (BroadcastEvent.lt_of_fired h))).2
      rw [h] at hnone
      cases hnone

theorem fired?_of_next {s : Parties} (h : s.Protocol) {i : SlotId} {status : WaitStatus}
    (hfired : s.event.fired? i = some status) (m : PartyMove) :
    (s.next m).event.fired? i = some status := by
  rcases fired?_next m (BroadcastEvent.lt_of_fired hfired) with hsame | ⟨k, op, status', -, hk⟩
  · exact hsame.trans hfired
  · have hnone := (h.firing k op _ i hk rfl).2.1
    rw [hfired] at hnone
    cases hnone

/-- A slot that has fired stays as it is. -/
theorem fired?_run {ms : List PartyMove} {i : SlotId} {status : WaitStatus}
    (h : (run ms).event.fired? i = some status) (ms' : List PartyMove) :
    (run (ms ++ ms')).event.fired? i = some status := by
  induction ms' using List.reverseRecOn with
  | nil => rwa [List.append_nil]
  | append_singleton ms' m ih =>
    rw [← List.append_assoc, run_concat]
    exact fired?_of_next (protocol_run _) ih m

/-- A slot that has been retired is never live again. -/
theorem live_ne_run {ms : List PartyMove} {i : SlotId} (hlt : i < (run ms).event.slots.size)
    (h : (run ms).event.live ≠ some i) (ms' : List PartyMove) :
    i < (run (ms ++ ms')).event.slots.size ∧ (run (ms ++ ms')).event.live ≠ some i := by
  induction ms' using List.reverseRecOn with
  | nil =>
    rw [List.append_nil]
    exact ⟨hlt, h⟩
  | append_singleton ms' m ih =>
    rw [← List.append_assoc, run_concat]
    refine ⟨Nat.lt_of_lt_of_le ih.1 (size_next _ m), fun hlive => ?_⟩
    rcases live_of_next hlive with hlive | ⟨rfl, -⟩
    · exact ih.2 hlive
    · exact Nat.lt_irrefl _ ih.1

theorem live_ne_of_retires {ms : List PartyMove} {n k : Nat} {i : SlotId} {status : WaitStatus}
    (h : Happens ms n (retires k i status)) {n' : Nat} (hlt : n < n') :
    (run (ms.take n')).event.live ≠ some i := by
  obtain ⟨m, hm, rfl, hlock, hlive, op, a, hk, hstatus⟩ := h
  have hi := ((protocol_run _).live i hlive).1
  have hop : op = .broadcast ∨ op = .close := by
    cases op <;> simp [EventOp.status?] at hstatus ⊢
  have hnext := run_take_succ hm
  have hsize := size_next (run (ms.take n)) (.act k)
  have hgone := EventCall.live_ne_of_retired (a := a) hi hlock hop
  rw [← (next_act hk).1, ← hnext] at hgone
  rw [← hnext] at hsize
  rw [take_eq_append ms hlt]
  exact (live_ne_run (Nat.lt_of_lt_of_le hi hsize) hgone _).2

/-- A call that fires a slot has retired it before. -/
theorem retires_before_fires {ms : List PartyMove} {n k : Nat} {i : SlotId} {status : WaitStatus}
    (h : Happens ms n (fires k i status)) : ∃ n' < n, Happens ms n' (retires k i status) := by
  obtain ⟨m, hm, -, op, hk⟩ := h
  obtain ⟨n', status', hstatus, hretires⟩ := retires_of_fires hk (i := i) rfl
  obtain rfl : status' = status := by
    have hserves := (protocol_run (ms.take n)).serves k op _ hk
    rcases hserves with ⟨rfl, rfl⟩ | ⟨rfl, rfl⟩
    · cases hstatus
      rfl
    · cases hstatus
      rfl
  have hlt := hretires.lt
  rw [List.length_take] at hlt
  exact ⟨n', by omega, hretires.of_take⟩

/-- A slot is retired once. -/
theorem retires_unique {ms : List PartyMove} {n n' k k' : Nat} {i : SlotId}
    {status status' : WaitStatus} (h : Happens ms n (retires k i status))
    (h' : Happens ms n' (retires k' i status')) : n = n' ∧ k = k' ∧ status = status' := by
  have hlive : ∀ {n k status}, Happens ms n (retires k i status) →
      (run (ms.take n)).event.live = some i := fun ⟨_, _, _, _, hlive, _⟩ => hlive
  have heq : n = n' := by
    rcases Nat.lt_trichotomy n n' with hlt | heq | hlt
    · exact (live_ne_of_retires h hlt (hlive h')).elim
    · exact heq
    · exact (live_ne_of_retires h' hlt (hlive h)).elim
  subst heq
  obtain ⟨m, hm, rfl, -, -, op, a, hk, hstatus⟩ := h
  obtain ⟨m', hm', hact, -, -, op', a', hk', hstatus'⟩ := h'
  cases hm.symm.trans hm'
  cases hact
  cases hk.symm.trans hk'
  cases hstatus.symm.trans hstatus'
  exact ⟨rfl, rfl, rfl⟩

/-- A slot that has been fired shows the status from then on. -/
theorem fired_of_fires {ms : List PartyMove} {n k : Nat} {i : SlotId} {status : WaitStatus}
    (h : Happens ms n (fires k i status)) {n' : Nat} (hlt : n < n') :
    (run (ms.take n')).event.fired? i = some status := by
  obtain ⟨m, hm, rfl, op, hk⟩ := h
  obtain ⟨hi, hnone, -⟩ := (protocol_run _).firing _ _ _ i hk rfl
  rw [take_eq_append ms hlt]
  refine fired?_run ?_ _
  rw [run_take_succ hm, (next_act hk).1]
  exact BroadcastEvent.fired?_fire_of_none _ hi hnone status

/-- A slot is fired once. -/
theorem fires_unique {ms : List PartyMove} {n n' k k' : Nat} {i : SlotId}
    {status status' : WaitStatus} (h : Happens ms n (fires k i status))
    (h' : Happens ms n' (fires k' i status')) : n = n' := by
  have hnone : ∀ {n k status}, Happens ms n (fires k i status) →
      (run (ms.take n)).event.fired? i = none := fun ⟨_, _, _, _, hk⟩ =>
    ((protocol_run _).firing _ _ _ i hk rfl).2.1
  rcases Nat.lt_trichotomy n n' with hlt | heq | hlt
  · have hfired := fired_of_fires h hlt
    rw [hnone h'] at hfired
    cases hfired
  · exact heq
  · have hfired := fired_of_fires h' hlt
    rw [hnone h] at hfired
    cases hfired

/-! ## What a wait is told -/

/-- What no step of a call ends stays so. -/
theorem at_run {k : Nat} {op : EventOp} {Q : EventCall → Prop}
    (hstep : ∀ e c, Q c → Q (c.step e).2) (hexpire : ∀ e c, Q c → Q (c.expire e))
    {ms : List PartyMove} {c : EventCall} (hk : (run ms).At k op c) (hc : Q c)
    (ms' : List PartyMove) : ∃ c', (run (ms ++ ms')).At k op c' ∧ Q c' := by
  induction ms' using List.reverseRecOn with
  | nil =>
    rw [List.append_nil]
    exact ⟨c, hk, hc⟩
  | append_singleton ms' m ih =>
    obtain ⟨c', hk', hc'⟩ := ih
    rw [← List.append_assoc, run_concat]
    by_cases hact : m = .act k
    · subst hact
      exact ⟨_, (next_act hk').2, hstep _ _ hc'⟩
    · by_cases hend : m = .expire k
      · subst hend
        exact ⟨_, next_expire hk', hexpire _ _ hc'⟩
      · exact ⟨c', at_of_ne hk' hact hend, hc'⟩

/-- A call is always one for the same operation. -/
theorem op_unique {ms : List PartyMove} {n k : Nat} {op op' : EventOp} {c c' : EventCall}
    (h : (run ms).At k op c) (h' : (run (ms.take n)).At k op' c') : op = op' := by
  obtain ⟨_, hk, -⟩ := at_run (Q := fun _ => True) (fun _ _ => id) (fun _ _ => id) h' trivial
    (ms.drop n)
  rw [List.take_append_drop] at hk
  cases h.symm.trans hk
  rfl

/-- A wait that has fetched a slot, or found none, has left the lock behind. -/
theorem leave_of_fetches {ms : List PartyMove} {n k : Nat} {slot : Option SlotId}
    (h : Happens ms n (fetches k slot)) :
    ∃ mode, (run (ms.take (n + 1))).At k (.wait mode) (.leave (.wait mode) slot) := by
  obtain ⟨m, hm, rfl, hlock, hlive, mode, a, hk⟩ := h
  rw [run_take_succ hm]
  refine ⟨mode, ?_⟩
  have hnext := (next_act hk).2
  rcases EventCall.step_enter (run (ms.take n)).event (.wait mode) a with ⟨-, -, hc⟩ | ⟨hheld, -, -⟩
  · rw [hc] at hnext
    exact hlive ▸ hnext
  · rw [hlock] at hheld
    cases hheld

/-- A wait that has found no slot is told that the event is closed. -/
theorem closed_of_fetches_none {ms : List PartyMove} {n k : Nat}
    (h : Happens ms n (fetches k none)) {n' : Nat} (hlt : n < n') :
    ∃ mode c, (run (ms.take n')).At k (.wait mode) c ∧
      (c = .leave (.wait mode) none ∨ c = .finished (.woken .closed)) := by
  obtain ⟨mode, hk⟩ := leave_of_fetches h
  rw [take_eq_append ms hlt]
  refine ⟨mode, at_run (Q := fun c => c = .leave (.wait mode) none ∨ c = .finished (.woken .closed))
    (fun e c hc => .inr ?_) (fun e c hc => ?_) hk (.inl rfl) _⟩
  · rcases hc with rfl | rfl <;> rfl
  · rcases hc with rfl | rfl
    · exact .inl rfl
    · exact .inr rfl

/-- A wait looks for a slot once. -/
theorem fetches_unique {ms : List PartyMove} {n n' k : Nat} {slot slot' : Option SlotId}
    (h : Happens ms n (fetches k slot)) (h' : Happens ms n' (fetches k slot')) :
    n = n' ∧ slot = slot' := by
  have hlater : ∀ {n n' slot slot'}, Happens ms n (fetches k slot) →
      Happens ms n' (fetches k slot') → ¬n < n' := fun hfetches hfetches' hlt => by
    obtain ⟨mode, hk⟩ := leave_of_fetches hfetches
    obtain ⟨m, hm, rfl, -, -, mode', a, hk'⟩ := hfetches'
    obtain ⟨c, hk'', hc⟩ := at_run (Q := fun c => ∀ op a, c ≠ .enter op a)
      (fun e c => EventCall.enter_ne_of_step) (fun e c => EventCall.enter_ne_of_expire) hk nofun
      ((ms.take _).drop _)
    rw [← take_eq_append ms hlt] at hk''
    cases hk'.symm.trans hk''
    exact hc _ _ rfl
  have heq : n = n' := by
    rcases Nat.lt_trichotomy n n' with hlt | heq | hlt
    · exact (hlater h h' hlt).elim
    · exact heq
    · exact (hlater h' h hlt).elim
  subst heq
  obtain ⟨_, -, -, -, hlive, -⟩ := h
  obtain ⟨_, -, -, -, hlive', -⟩ := h'
  exact ⟨rfl, hlive.symm.trans hlive'⟩

/-- A wait that has fetched a slot knows it, or has ended and says what it has seen of it. -/
theorem attends_of_fetches {ms : List PartyMove} {n k : Nat} {i : SlotId}
    (h : Happens ms n (fetches k (some i))) :
    ∃ op c, (run ms).At k op c ∧ c.Attends i := by
  obtain ⟨mode, hleave⟩ := leave_of_fetches h
  obtain ⟨c, hk, hc⟩ := at_run (Q := EventCall.Attends i) (fun e _ hc => hc.step e)
    (fun e _ hc => hc.expire e) hleave (.inl (.inl rfl)) (ms.drop (n + 1))
  rw [List.take_append_drop] at hk
  exact ⟨_, c, hk, hc⟩

/-- A wait whose slot has fired comes nearer to its end with every turn it takes. -/
theorem turnsLeft_run {ms : List PartyMove} {k : Nat} {op : EventOp} {c : EventCall} {i : SlotId}
    {status : WaitStatus} (hk : (run ms).At k op c) (hc : c.Attends i)
    (hfired : (run ms).event.fired? i = some status) (ms' : List PartyMove) :
    ∃ c', (run (ms ++ ms')).At k op c' ∧ c'.Attends i ∧
      c'.turnsLeft ≤ c.turnsLeft - ms'.count (.act k) := by
  induction ms' using List.reverseRecOn with
  | nil =>
    rw [List.append_nil]
    exact ⟨c, hk, hc, Nat.le_refl _⟩
  | append_singleton ms' m ih =>
    obtain ⟨c', hk', hc', hleft⟩ := ih
    rw [← List.append_assoc, run_concat, List.count_append, List.count_singleton]
    by_cases hact : m = .act k
    · subst hact
      have hless := hc'.turnsLeft_step (fired?_run hfired ms')
      rw [beq_self_eq_true, if_pos rfl]
      exact ⟨_, (next_act hk').2, hc'.step _, by omega⟩
    · rw [beq_false_of_ne hact, if_neg Bool.false_ne_true, Nat.add_zero]
      by_cases hend : m = .expire k
      · subst hend
        have hexpire := EventCall.turnsLeft_expire (run (ms ++ ms')).event c'
        exact ⟨_, next_expire hk', hc'.expire _, Nat.le_trans hexpire hleft⟩
      · exact ⟨c', at_of_ne hk' hact hend, hc', hleft⟩

/-- A wait looks at a slot that it has fetched. -/
theorem fetches_of_looks {ms : List PartyMove} {n k : Nat} {i : SlotId}
    {fired : Option WaitStatus} (h : Happens ms n (looks k i fired)) :
    ∃ n' < n, Happens ms n' (fetches k (some i)) := by
  obtain ⟨m, hm, -, hlooks⟩ := h
  have hknows : ∃ op c, (run (ms.take n)).At k op c ∧ c.Knows i := by
    rcases hlooks with ⟨-, ⟨mode, hk⟩, -⟩ | ⟨-, hk⟩ | ⟨-, hk⟩ <;> exact ⟨_, _, hk, .inl rfl⟩
  obtain ⟨op, c, hk, hc⟩ := hknows
  obtain ⟨n', hfetches⟩ := fetches_of_knows hk hc
  have hlt := hfetches.lt
  rw [List.length_take] at hlt
  exact ⟨n', by omega, hfetches.of_take⟩

/-- What a wait has seen comes from a call that retired the slot after the wait had fetched
it. -/
theorem retires_of_looks {ms : List PartyMove} {n k : Nat} {i : SlotId} {status : WaitStatus}
    (h : Happens ms n (looks k i (some status))) : ∃ n' n'' k', n' < n'' ∧
      Happens ms n' (fetches k (some i)) ∧ Happens ms n'' (retires k' i status) := by
  obtain ⟨n', -, hfetches⟩ := fetches_of_looks h
  obtain ⟨_, -, hfired, -⟩ := h
  obtain ⟨n₁, k', hfires⟩ := fires_of_fired hfired
  obtain ⟨n'', -, hretires⟩ := retires_before_fires hfires
  have hretires := hretires.of_take
  refine ⟨n', n'', k', ?_, hfetches, hretires⟩
  rcases Nat.lt_trichotomy n' n'' with hlt | heq | hlt
  · exact hlt
  · subst heq
    obtain ⟨_, hm, rfl, -, -, mode, a, hk⟩ := hfetches
    obtain ⟨_, hm', hact, -, -, op', a', hk', hstatus⟩ := hretires
    cases hm.symm.trans hm'
    cases hact
    cases hk.symm.trans hk'
    cases hstatus
  · obtain ⟨_, -, -, -, hlive, -⟩ := hfetches
    exact (live_ne_of_retires hretires hlt hlive).elim

/-- A wait that has fetched a slot and ended has been woken, or has given up. -/
theorem reply_of_fetches {ms : List PartyMove} {n k : Nat} {op : EventOp} {i : SlotId}
    {reply : EventReply} (h : Happens ms n (fetches k (some i)))
    (hk : (run ms).At k op (.finished reply)) :
    (∃ status, reply = .woken status) ∨ reply = .failed .waitTimeout := by
  obtain ⟨op', c, hk', hc⟩ := attends_of_fetches h
  cases hk.symm.trans hk'
  rcases hc with (hholds | ⟨_, hunregister⟩) | ⟨fired, hreply⟩
  · exact hholds.elim
  · cases hunregister
  · obtain rfl := EventCall.finished.inj hreply
    cases fired with
    | some status => exact .inl ⟨status, rfl⟩
    | none => exact .inr rfl

/-- A wait that is woken has had its slot retired since it fetched it. -/
theorem retires_of_woken {ms : List PartyMove} {n k : Nat} {op : EventOp} {i : SlotId}
    {status : WaitStatus} (h : Happens ms n (fetches k (some i)))
    (hk : (run ms).At k op (.finished (.woken status))) :
    ∃ n' k', n < n' ∧ Happens ms n' (retires k' i status) := by
  rcases looks_of_reply (some status) hk with ⟨-, n', hnone⟩ | ⟨n', j, hlooks⟩
  · cases (fetches_unique h hnone).2
  · obtain ⟨n₁, n₂, k', hlt, hfetches, hretires⟩ := retires_of_looks hlooks
    obtain ⟨rfl, hslot⟩ := fetches_unique h hfetches
    cases hslot
    exact ⟨n₂, k', hlt, hretires⟩

/-- A wait that cannot go on waits for a slot that has not fired. -/
theorem unfired_of_stuck {s : Parties} {k : Nat} {op : EventOp} {i : SlotId} {mode : WaitMode}
    (hk : s.At k op (.waiting i mode)) (hstuck : s.next (.act k) = s) :
    s.event.fired? i = none := by
  have hnext := (next_act hk).2
  rw [hstuck] at hnext
  cases hfired : s.event.fired? i with
  | none => rfl
  | some status =>
    simp only [EventCall.step, hfired] at hnext
    cases hk.symm.trans hnext

/-! ## The protocol -/

/-- What a run of calls on an event keeps to. -/
structure KeepsProtocol (ms : List PartyMove) : Prop where
  /-- At most one call retires a slot. -/
  retired_once : ∀ n n' k k' i status status', Happens ms n (retires k i status) →
    Happens ms n' (retires k' i status') → n = n' ∧ k = k' ∧ status = status'
  fired_once : ∀ n n' k k' i status status', Happens ms n (fires k i status) →
    Happens ms n' (fires k' i status') → n = n'
  /-- The call that has retired a slot fires it, with its own status. -/
  fired_by_retirer : ∀ n k i status, Happens ms n (fires k i status) →
    ∃ n' < n, Happens ms n' (retires k i status)
  /-- A wait that has fetched a slot ends by being woken, or it has given up. -/
  ends : ∀ n k op i reply, Happens ms n (fetches k (some i)) →
    (run ms).At k op (.finished reply) →
      (∃ status, reply = .woken status) ∨ reply = .failed .waitTimeout
  /-- A wait is woken as the call says that has retired the slot since the wait fetched it. -/
  woken : ∀ n k op i status, Happens ms n (fetches k (some i)) →
    (run ms).At k op (.finished (.woken status)) → ∀ status',
      (status = status' ↔ ∃ n' k', n < n' ∧ Happens ms n' (retires k' i status'))
  /-- A wait that has found no slot gives the lock back and is told that the event is
  closed. -/
  unslotted : ∀ n k, Happens ms n (fetches k none) → ∃ mode c, (run ms).At k (.wait mode) c ∧
    (c = .leave (.wait mode) none ∨ c = .finished (.woken .closed))
  /-- A wait that is woken has looked for a slot. -/
  looked : ∀ k op status, (run ms).At k op (.finished (.woken status)) →
    ∃ n slot, Happens ms n (fetches k slot)
  /-- A wait that ends, or is past the lock, has looked for a slot. -/
  fetched : ∀ k mode c, (run ms).At k (.wait mode) c → (∀ a, c ≠ .enter (.wait mode) a) →
    ∃ n slot, Happens ms n (fetches k slot)
  /-- A wait that cannot go on waits for a slot that is live or about to be fired by the
  call that has retired it. -/
  blocked : ∀ k op i mode, (run ms).At k op (.waiting i mode) →
    (run ms).next (.act k) = run ms → (run ms).event.live = some i ∨
      ∃ n k' op' c status, Happens ms n (retires k' i status) ∧ (run ms).At k' op' c ∧ c.Fires i
  /-- A wait whose slot has fired ends with its fourth turn from then on, at the latest. -/
  returns : ∀ n k i status, Happens ms n (fetches k (some i)) →
    (run ms).event.fired? i = some status → ∀ ms', 4 ≤ ms'.count (.act k) →
      ∃ op reply, (run (ms ++ ms')).At k op (.finished reply)
  /-- A wait gives up only if the slot it has fetched has not fired then, and only if it has
  a timeout. -/
  gives_up : ∀ k op, (run ms).At k op (.finished (.failed .waitTimeout)) →
    (op = .wait .poll ∨ op = .wait .timed) ∧ ∃ n n' i, n < n' ∧
      Happens ms n (fetches k (some i)) ∧ Happens ms n' (looks k i none)
  /-- A reopening leaves a live slot. -/
  reopened : ∀ k c i, (run ms).At k .reopen c → (run ms).event.live = some i →
    ((run ms).next (.act k)).event.live = some i
  /-- The number of waiters is the number of calls registered on the live slot. -/
  waiters : ∀ k op w, (run ms).At k op (.finished (.waiters w)) →
    ∃ n, Happens ms n (counts k w)

theorem every_run_keeps_protocol (ms : List PartyMove) : KeepsProtocol ms where
  retired_once _ _ _ _ _ _ _ h h' := retires_unique h h'
  fired_once _ _ _ _ _ _ _ h h' := fires_unique h h'
  fired_by_retirer _ _ _ _ h := retires_before_fires h
  ends _ _ _ _ _ hfetches hk := reply_of_fetches hfetches hk
  woken n k op i status hfetches hk status' := by
    have hretired := retires_of_woken hfetches hk
    refine ⟨fun heq => heq ▸ hretired, fun ⟨n', k', _, hretires'⟩ => ?_⟩
    obtain ⟨n'', k'', -, hretires⟩ := hretired
    exact (retires_unique hretires hretires').2.2
  unslotted n k hfetches := by
    have hclosed := closed_of_fetches_none hfetches hfetches.lt
    rwa [List.take_length] at hclosed
  looked k op status hk := by
    rcases looks_of_reply (some status) hk with ⟨-, n, hnone⟩ | ⟨n, i, hlooks⟩
    · exact ⟨n, none, hnone⟩
    · obtain ⟨n', -, -, -, hfetches, -⟩ := retires_of_looks hlooks
      exact ⟨n', some i, hfetches⟩
  fetched _ _ _ hk hc := fetches_of_wait hk hc
  blocked k op i mode hk hstuck := by
    have hs := protocol_run ms
    have hnone := unfired_of_stuck hk hstuck
    have hlt := hs.slots.known _ i ⟨k, op, hk⟩ (.inl rfl)
    refine (hs.slots.unfired i hlt hnone).imp_right ?_
    rintro ⟨c, ⟨k', op', hk'⟩, hfires⟩
    obtain ⟨n, status, -, hretires⟩ := retires_of_fires hk' hfires
    exact ⟨n, k', op', c, status, hretires, hk', hfires⟩
  returns n k i status hfetches hfired ms' hturns := by
    obtain ⟨op, c, hk, hc⟩ := attends_of_fetches hfetches
    obtain ⟨c', hk', hc', hleft⟩ := turnsLeft_run hk hc hfired ms'
    have hfour := c.turnsLeft_le
    obtain ⟨reply, rfl⟩ := hc'.finished (by omega)
    exact ⟨op, reply, hk'⟩
  gives_up k op hk := by
    rcases looks_of_reply none hk with ⟨hclosed, -⟩ | ⟨n', i, hlooks⟩
    · cases hclosed
    · obtain ⟨n, hlt, hfetches⟩ := fetches_of_looks hlooks
      refine ⟨?_, n, n', i, hlt, hfetches, hlooks⟩
      obtain ⟨_, -, -, ⟨-, -, hsome⟩ | ⟨-, hat⟩ | ⟨-, hat⟩⟩ := hlooks
      · cases hsome
      · exact .inl (op_unique hk hat)
      · exact .inr (op_unique hk hat)
  reopened k c i hk hlive := by
    have hserves := (protocol_run ms).serves k .reopen c hk
    rw [(next_act hk).1]
    rcases EventCall.step_live (run ms).event c with ⟨hsame, -⟩ | ⟨op, a, rfl, hexchange, -⟩
    · exact hsame.trans hlive
    · obtain rfl : op = .reopen := hserves.1
      rw [hexchange, BroadcastEvent.exchange, hlive]
      exact hlive
  waiters _ _ _ hk := counts_of_reply hk

/-- A wait that has fetched the live slot is woken by a broadcast. -/
example : (run [.begin (.wait .untimed), .act 0, .act 0, .act 0, .begin .broadcast, .act 1,
    .act 1, .act 1, .act 0, .act 0]).parties.map (·.call) =
      [.finished (.woken .signaled), .finished .done] := by
  decide

end LogPipeline.Sync.Parties
