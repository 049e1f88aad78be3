import LogPipeline.Sync.SpinMutex
import Mathlib.Data.Set.Card

/-!
# One guard at a time

The lock does not record who holds it, so that it is the guards that have to be counted: the
lock is held exactly while one party has a guard (`Guarded`). The guards of a run therefore
come one after the other, and what all of them read and write, guard by guard in the order of
their acquisitions, is what a single user of the value would read and write
(`every_run_guards`).
-/

namespace LogPipeline.Sync

/-- An attempt at a held lock leaves it alone; it is the last one only if the attempts are
counted. -/
theorem SpinLock.attempt_held (a : Acquisition) :
    a.budget ≠ 0 ∧ held.attempt a = (.refused, held) ∨
      ∃ a', a'.budget = a.budget ∧ held.attempt a = (.again a', held) := by
  unfold attempt
  simp only
  split
  · exact .inr ⟨a, rfl, rfl⟩
  · next hbudget =>
    split
    · exact .inl ⟨hbudget, rfl⟩
    · exact .inr ⟨{ a with failed := a.failed + 1 }, rfl, rfl⟩

namespace SpinMutex

variable {α : Type}

/-! ## What a move does -/

/-- An access to the guarded value. -/
inductive Access (α : Type) where
  | read (v : α)
  | write (v : α)

/-- The access that a move has been, going by what the party is told. -/
def Move.access? : Move α → Reply α → Option (Access α)
  | .read, .value v => some (.read v)
  | .write v, .silent => some (.write v)
  | _, _ => none

namespace Contest

variable {c : Contest α} {i j : Nat}

/-- Whether a party has the guard. -/
def Inside (c : Contest α) (i : Nat) : Prop := ∃ seen, c.party i = .inside seen

@[simp] theorem mutex_setParty (c : Contest α) (i : Nat) (p : Party α) :
    (c.setParty i p).mutex = c.mutex := rfl

@[simp] theorem party_setParty_self (c : Contest α) (i : Nat) (p : Party α) :
    (c.setParty i p).party i = p := if_pos rfl

theorem party_setParty_of_ne (c : Contest α) (p : Party α) (h : j ≠ i) :
    (c.setParty i p).party j = c.party j := if_neg h

theorem setParty_party (c : Contest α) (i : Nat) : c.setParty i (c.party i) = c := by
  obtain ⟨mutex, party⟩ := c
  simp only [setParty, mk.injEq, true_and]
  funext j
  split
  · next h => rw [h]
  · rfl

/-- What a move of a party may do. -/
inductive Moves (c : Contest α) (i : Nat) : Move α → Reply α → Contest α → Prop
  /-- It finds the lock free and gets the guard. -/
  | take {m : Move α} (free : c.mutex.lock = .free) (outside : ¬c.Inside i) :
    Moves c i m .acquired
      ({ c with mutex := { c.mutex with lock := .held } }.setParty i (.inside c.mutex.value))
  /-- It has no guard and does not get one. -/
  | stay {m : Move α} {r : Reply α} {p : Party α} (outside : ¬c.Inside i)
    (still : ∀ seen, p ≠ .inside seen) (acquired : r ≠ .acquired) (held : r ≠ .notHeld)
    (access : m.access? r = none) : Moves c i m r (c.setParty i p)
  /-- It has a guard and wants another one, which only another party can. -/
  | ignore {m : Move α} (access : m.access? .silent = none) : Moves c i m .silent c
  | read (inside : c.Inside i) :
    Moves c i .read (.value c.mutex.value) (c.setParty i (.inside c.mutex.value))
  | write (inside : c.Inside i) (v : α) :
    Moves c i (.write v) .silent
      ({ c with mutex := { c.mutex with value := v } }.setParty i (.inside v))
  | drop (inside : c.Inside i) (held : c.mutex.lock = .held) :
    Moves c i .drop .silent
      ({ c with mutex := { c.mutex with lock := .free } }.setParty i .outside)
  /-- It drops a guard of a lock that is not held. -/
  | stray (inside : c.Inside i) (free : c.mutex.lock = .free) :
    Moves c i .drop .notHeld (c.setParty i .outside)

theorem moves_attempt (c : Contest α) (i : Nat) (a : Acquisition) {refused : Reply α × Party α}
    (outside : ¬c.Inside i) (still : ∀ seen, refused.2 ≠ .inside seen)
    (acquired : refused.1 ≠ .acquired) (held : refused.1 ≠ .notHeld) :
    c.Moves i .attempt (c.attempt i a refused).1 (c.attempt i a refused).2 := by
  obtain ⟨⟨lock, value⟩, party⟩ := c
  cases lock with
  | free => exact .take rfl outside
  | held =>
    unfold attempt
    rcases SpinLock.attempt_held a with ⟨-, h⟩ | ⟨a', -, h⟩
    · simp only [h]
      exact .stay outside still acquired held rfl
    · simp only [h]
      exact .stay outside nofun nofun nofun rfl

/-- A party without a guard may also stay where it is. -/
theorem Moves.rest {m : Move α} {r : Reply α} (outside : ¬c.Inside i) (acquired : r ≠ .acquired)
    (held : r ≠ .notHeld) (access : m.access? r = none) : Moves c i m r c := by
  have h : Moves c i m r (c.setParty i (c.party i)) :=
    .stay outside (fun seen hp => outside ⟨seen, hp⟩) acquired held access
  rwa [setParty_party] at h

theorem moves_move (c : Contest α) (i : Nat) (m : Move α) :
    c.Moves i m (c.move i m).1 (c.move i m).2 := by
  cases hp : c.party i with
  | outside =>
    have outside : ¬c.Inside i := by simp [Inside, hp]
    cases m <;> simp only [move, hp]
    case want | lock => exact .stay outside nofun nofun nofun rfl
    all_goals exact .rest outside nofun nofun rfl
  | trying a =>
    have outside : ¬c.Inside i := by simp [Inside, hp]
    cases m <;> simp only [move, hp]
    case attempt => exact c.moves_attempt i a outside nofun nofun nofun
    all_goals exact .rest outside nofun nofun rfl
  | locking =>
    have outside : ¬c.Inside i := by simp [Inside, hp]
    cases m <;> simp only [move, hp]
    case attempt => exact c.moves_attempt i (.start 1) outside nofun nofun nofun
    all_goals exact .rest outside nofun nofun rfl
  | inside seen =>
    have inside : c.Inside i := ⟨seen, hp⟩
    cases m <;> simp only [move, hp]
    case read => exact .read inside
    case write v => exact .write inside v
    case drop =>
      cases hl : c.mutex.lock with
      | free => exact .stray inside hl
      | held => exact .drop inside hl
    all_goals exact .ignore rfl

/-- Who has no guard and does not get one changes nothing that others see. -/
theorem mutex_move {m : Move α} (outside : ¬c.Inside i) (acquired : (c.move i m).1 ≠ .acquired) :
    (c.move i m).2.mutex = c.mutex := by
  have hmoves := c.moves_move i m
  generalize (c.move i m).1 = r at hmoves acquired
  generalize (c.move i m).2 = c' at hmoves ⊢
  cases hmoves with
  | take => exact absurd rfl acquired
  | stay | ignore => rfl
  | read inside | write inside | drop inside | stray inside => exact absurd inside outside

/-- A contest after some moves, each with the party that makes it. -/
def run (c : Contest α) (moves : List (Nat × Move α)) : Contest α :=
  moves.foldl (fun c m => (c.move m.1 m.2).2) c

/-- The accesses in some moves, one after the other. -/
def accesses (c : Contest α) : List (Nat × Move α) → List (Access α)
  | [] => []
  | (i, m) :: moves => (m.access? (c.move i m).1).toList ++ (c.move i m).2.accesses moves

end Contest

/-! ## Guards of a run -/

/-- A guard: whose it is, and the accesses made through it. -/
structure Tenure (α : Type) where
  party : Nat
  accesses : List (Access α)

/-- Adds an access to those made through the latest guard of a party, the latest guard of
all being the first. -/
def addAccess (i : Nat) (a : Access α) : List (Tenure α) → List (Tenure α)
  | [] => []
  | t :: ts =>
    if t.party = i then { t with accesses := t.accesses ++ [a] } :: ts else t :: addAccess i a ts

/-- The guards after a move of a party that has been told something. -/
def addMove (i : Nat) (m : Move α) (r : Reply α) (ts : List (Tenure α)) : List (Tenure α) :=
  match r, m.access? r with
  | .acquired, _ => ⟨i, []⟩ :: ts
  | _, some a => addAccess i a ts
  | _, none => ts

theorem addMove_of_none {i : Nat} {m : Move α} {r : Reply α} (acquired : r ≠ .acquired)
    (access : m.access? r = none) (ts : List (Tenure α)) : addMove i m r ts = ts := by
  unfold addMove
  rw [access]
  split
  · exact absurd rfl acquired
  · next heq => cases heq
  · rfl

/-- A contest with the guards that there have been, the latest one first. -/
structure Watched (α : Type) where
  contest : Contest α
  tenures : List (Tenure α)

namespace Watched

def new (value : α) : Watched α := ⟨.new value, []⟩

def next (w : Watched α) (m : Nat × Move α) : Watched α :=
  let (r, c) := w.contest.move m.1 m.2
  ⟨c, addMove m.1 m.2 r w.tenures⟩

def run (w : Watched α) (moves : List (Nat × Move α)) : Watched α := moves.foldl next w

/-- The guards in the order of their acquisitions. -/
def guards (w : Watched α) : List (Tenure α) := w.tenures.reverse

/-- All accesses, guard by guard. -/
def accesses (w : Watched α) : List (Access α) := w.guards.flatMap (·.accesses)

theorem accesses_cons (c : Contest α) (t : Tenure α) (ts : List (Tenure α)) :
    accesses ⟨c, t :: ts⟩ = accesses ⟨c, ts⟩ ++ t.accesses := by
  simp [accesses, guards]

theorem contest_run (w : Watched α) (moves : List (Nat × Move α)) :
    (w.run moves).contest = w.contest.run moves := by
  induction moves generalizing w with
  | nil => rfl
  | cons m moves ih => exact ih (w.next m)

end Watched

/-- The value after some accesses to another one. -/
def valueAfter (v : α) : List (Access α) → α
  | [] => v
  | .read _ :: rest => valueAfter v rest
  | .write v :: rest => valueAfter v rest

/-- Whether each read of some accesses gives what was written last, or the value they began
with. -/
def ReadsBack (v : α) : List (Access α) → Prop
  | [] => True
  | .read u :: rest => u = v ∧ ReadsBack v rest
  | .write v :: rest => ReadsBack v rest

theorem valueAfter_append (v : α) (as bs : List (Access α)) :
    valueAfter v (as ++ bs) = valueAfter (valueAfter v as) bs := by
  induction as generalizing v with
  | nil => rfl
  | cons a as ih => cases a <;> exact ih _

theorem readsBack_append (v : α) (as bs : List (Access α)) :
    ReadsBack v (as ++ bs) ↔ ReadsBack v as ∧ ReadsBack (valueAfter v as) bs := by
  induction as generalizing v with
  | nil => simp [ReadsBack, valueAfter]
  | cons a as ih =>
    cases a with
    | read u => simp only [List.cons_append, ReadsBack, valueAfter, ih, and_assoc]
    | write u => exact ih u

/-- What is kept by every move: only the latest guard can be alive, it is so exactly while the
lock is held, and it has seen the value as it is. -/
structure Guarded (initial : α) (w : Watched α) : Prop where
  latest : ∀ i seen, w.contest.party i = .inside seen →
    w.contest.mutex.lock = .held ∧ seen = w.contest.mutex.value ∧
      ∃ t ts, w.tenures = t :: ts ∧ t.party = i
  held : w.contest.mutex.lock = .held → ∃ i, w.contest.Inside i
  readsBack : ReadsBack initial w.accesses
  value : valueAfter initial w.accesses = w.contest.mutex.value

namespace Guarded

variable {initial : α} {w : Watched α}

theorem new (initial : α) : Guarded initial (.new initial) := ⟨nofun, nofun, trivial, rfl⟩

theorem unique (h : Guarded initial w) {i j : Nat} (hi : w.contest.Inside i)
    (hj : w.contest.Inside j) : i = j := by
  obtain ⟨seen, hi⟩ := hi
  obtain ⟨seen', hj⟩ := hj
  obtain ⟨-, -, t, ts, hts, hti⟩ := h.latest i seen hi
  obtain ⟨-, -, t', ts', hts', htj⟩ := h.latest j seen' hj
  rw [hts, List.cons.injEq] at hts'
  rw [← hti, ← htj, hts'.1]

section Step

variable {c : Contest α} {ts : List (Tenure α)} {i : Nat}

theorem take (h : Guarded initial ⟨c, ts⟩) (free : c.mutex.lock = .free) :
    Guarded initial ⟨{ c with mutex := { c.mutex with lock := .held } }.setParty i
      (.inside c.mutex.value), ⟨i, []⟩ :: ts⟩ where
  latest j seen hj := by
    by_cases hji : j = i
    · subst hji
      obtain rfl : c.mutex.value = seen := by simpa using hj
      exact ⟨rfl, rfl, _, _, rfl, rfl⟩
    · -- whoever else has a guard would hold the lock
      rw [Contest.party_setParty_of_ne _ _ hji] at hj
      have hheld := (h.latest j seen hj).1
      rw [free] at hheld
      cases hheld
  held _ := ⟨i, c.mutex.value, Contest.party_setParty_self ..⟩
  readsBack := by
    rw [Watched.accesses_cons, List.append_nil]
    exact h.readsBack
  value := by
    rw [Watched.accesses_cons, List.append_nil]
    exact h.value

theorem stay (h : Guarded initial ⟨c, ts⟩) (outside : ¬c.Inside i) {p : Party α}
    (still : ∀ seen, p ≠ .inside seen) : Guarded initial ⟨c.setParty i p, ts⟩ where
  latest j seen hj := by
    by_cases hji : j = i
    · subst hji
      rw [Contest.party_setParty_self] at hj
      exact absurd hj (still seen)
    · rw [Contest.party_setParty_of_ne _ _ hji] at hj
      exact h.latest j seen hj
  held hlock := by
    obtain ⟨j, seen, hj⟩ := h.held hlock
    have hji : j ≠ i := fun heq => outside ⟨seen, heq ▸ hj⟩
    exact ⟨j, seen, (Contest.party_setParty_of_ne _ _ hji).trans hj⟩
  readsBack := h.readsBack
  value := h.value

/-- An access of the party with the guard is the last of all. -/
theorem accesses_addAccess (h : Guarded initial ⟨c, ts⟩) (inside : c.Inside i) (a : Access α)
    (c' : Contest α) : Watched.accesses ⟨c', addAccess i a ts⟩ = Watched.accesses ⟨c, ts⟩ ++ [a] := by
  obtain ⟨seen, hp⟩ := inside
  obtain ⟨-, -, t, rest, rfl, rfl⟩ := h.latest i seen hp
  have hadd : addAccess t.party a (t :: rest) = { t with accesses := t.accesses ++ [a] } :: rest :=
    if_pos rfl
  rw [hadd, Watched.accesses_cons, Watched.accesses_cons, List.append_assoc]
  rfl

/-- The party with the guard reads or writes the value. -/
theorem access (h : Guarded initial ⟨c, ts⟩) (inside : c.Inside i) {a : Access α}
    (reads : ReadsBack c.mutex.value [a]) :
    Guarded initial ⟨{ c with mutex := { c.mutex with value := valueAfter c.mutex.value [a] } }.setParty
      i (.inside (valueAfter c.mutex.value [a])), addAccess i a ts⟩ := by
  obtain ⟨seen, hp⟩ := inside
  have haccesses := h.accesses_addAccess ⟨seen, hp⟩ a
  obtain ⟨hlock, -, t, rest, rfl, rfl⟩ := h.latest i seen hp
  refine ⟨fun j seen' hj => ?_, fun _ => ⟨_, _, Contest.party_setParty_self ..⟩, ?_, ?_⟩
  · by_cases hji : j = t.party
    · subst hji
      rw [Contest.party_setParty_self, Party.inside.injEq] at hj
      exact ⟨hlock, hj.symm, _, _, if_pos rfl, rfl⟩
    · rw [Contest.party_setParty_of_ne _ _ hji] at hj
      exact absurd (h.unique ⟨seen', hj⟩ ⟨seen, hp⟩) hji
  · rw [haccesses, readsBack_append, h.value]
    exact ⟨h.readsBack, reads⟩
  · rw [haccesses, valueAfter_append, h.value]
    rfl

theorem drop (h : Guarded initial ⟨c, ts⟩) (inside : c.Inside i) :
    Guarded initial ⟨{ c with mutex := { c.mutex with lock := .free } }.setParty i .outside, ts⟩ where
  latest j seen hj := by
    by_cases hji : j = i
    · subst hji
      rw [Contest.party_setParty_self] at hj
      cases hj
    · rw [Contest.party_setParty_of_ne _ _ hji] at hj
      exact absurd (h.unique ⟨seen, hj⟩ inside) hji
  held := nofun
  readsBack := h.readsBack
  value := h.value

theorem not_free (h : Guarded initial ⟨c, ts⟩) (inside : c.Inside i) : c.mutex.lock ≠ .free := by
  obtain ⟨seen, hp⟩ := inside
  rw [(h.latest i seen hp).1]
  nofun

end Step

theorem next (h : Guarded initial w) (m : Nat × Move α) :
    Guarded initial (w.next m) ∧ (w.next m).accesses =
      w.accesses ++ (m.2.access? (w.contest.move m.1 m.2).1).toList := by
  obtain ⟨i, m⟩ := m
  obtain ⟨c, ts⟩ := w
  have hmoves := c.moves_move i m
  simp only [Watched.next]
  generalize (c.move i m).1 = r at hmoves
  generalize (c.move i m).2 = c' at hmoves
  cases hmoves with
  | take free outside =>
    have hnone : m.access? .acquired = none := by cases m <;> rfl
    refine ⟨h.take free, ?_⟩
    rw [hnone]
    exact Watched.accesses_cons ..
  | stay outside still acquired held access =>
    rw [addMove_of_none acquired access, access]
    exact ⟨h.stay outside still, (List.append_nil _).symm⟩
  | ignore access =>
    have acquired : (.silent : Reply α) ≠ .acquired := nofun
    rw [addMove_of_none acquired access, access]
    exact ⟨h, (List.append_nil _).symm⟩
  | read inside =>
    exact ⟨h.access inside (a := .read c.mutex.value) ⟨rfl, trivial⟩,
      h.accesses_addAccess inside _ _⟩
  | write inside v =>
    exact ⟨h.access inside (a := .write v) trivial, h.accesses_addAccess inside _ _⟩
  | drop inside held => exact ⟨h.drop inside, (List.append_nil _).symm⟩
  | stray inside free => exact absurd free (h.not_free inside)

theorem run (h : Guarded initial w) (moves : List (Nat × Move α)) :
    Guarded initial (w.run moves) ∧
      (w.run moves).accesses = w.accesses ++ w.contest.accesses moves := by
  induction moves generalizing w with
  | nil => exact ⟨h, (List.append_nil _).symm⟩
  | cons m moves ih =>
    obtain ⟨hnext, haccesses⟩ := h.next m
    obtain ⟨hrun, hmore⟩ := ih hnext
    refine ⟨hrun, hmore.trans ?_⟩
    rw [haccesses, List.append_assoc]
    rfl

/-- No guard of a lock that is not held is ever dropped. -/
theorem ne_notHeld (h : Guarded initial w) (i : Nat) (m : Move α) :
    (w.contest.move i m).1 ≠ .notHeld := by
  have hmoves := w.contest.moves_move i m
  generalize (w.contest.move i m).1 = r at hmoves
  generalize (w.contest.move i m).2 = c' at hmoves
  cases hmoves with
  | stay _ _ _ held => exact held
  | stray inside free => exact absurd free (h.not_free inside)
  | take | ignore | read | write | drop => nofun

/-- The guards are counted by the lock. -/
theorem encard_inside (h : Guarded initial w) :
    {i | w.contest.Inside i}.encard = if w.contest.mutex.isLocked then 1 else 0 := by
  cases hlock : w.contest.mutex.lock with
  | free =>
    have hnone : {i | w.contest.Inside i} = ∅ :=
      Set.eq_empty_of_forall_notMem fun i hi => h.not_free hi hlock
    simp [hnone, isLocked, SpinLock.isLocked, hlock]
  | held =>
    obtain ⟨i, hi⟩ := h.held hlock
    have hone : {i | w.contest.Inside i} = {i} :=
      Set.eq_singleton_iff_unique_mem.2 ⟨hi, fun j hj => h.unique hj hi⟩
    simp [hone, isLocked, SpinLock.isLocked, hlock]

end Guarded

/-- Any number of parties that share a guarded value, in any order of their moves: the number
of guards is one while the lock is held and none while it is free; a guard that is dropped
releases the lock, which is held; whoever has no guard and does not get one changes neither
the lock nor the value. The accesses of the guards come guard by guard, and each guard reads
what was written last through itself or, before that, what the guard before it has left. -/
theorem every_run_guards (initial : α) (moves : List (Nat × Move α)) :
    let c := (Contest.new initial).run moves
    let guards := ((Watched.new initial).run moves).guards
    {i | c.Inside i}.encard = (if c.mutex.isLocked then 1 else 0) ∧
      (∀ i, c.Inside i → (c.move i .drop).1 = .silent ∧ (c.move i .drop).2.mutex.lock = .free) ∧
      (∀ i m, (c.move i m).1 ≠ .notHeld) ∧
      (∀ i m, ¬c.Inside i → (c.move i m).1 ≠ .acquired → (c.move i m).2.mutex = c.mutex) ∧
      guards.flatMap (·.accesses) = (Contest.new initial).accesses moves ∧
      (∀ before t after, guards = before ++ t :: after →
        ReadsBack (valueAfter initial (before.flatMap (·.accesses))) t.accesses) ∧
      ∀ i, c.Inside i → (c.move i .read).1 =
        .value (valueAfter initial ((Contest.new initial).accesses moves)) := by
  obtain ⟨h, haccesses⟩ := (Guarded.new initial).run moves
  have hcontest := (Watched.new initial).contest_run moves
  generalize (Watched.new initial).run moves = w at h haccesses hcontest ⊢
  obtain ⟨c, ts⟩ := w
  obtain rfl : c = (Contest.new initial).run moves := hcontest
  intro c guards
  refine ⟨h.encard_inside, fun i ⟨seen, hp⟩ => ?_, h.ne_notHeld, fun i m => c.mutex_move, haccesses,
    fun before t after hguards => ?_, fun i ⟨seen, hp⟩ => ?_⟩
  · have hlock : c.mutex.lock = .held := (h.latest i seen hp).1
    simp [Contest.move, hp, hlock, SpinLock.release?]
  · have hreads : ReadsBack initial (guards.flatMap (·.accesses)) := h.readsBack
    rw [hguards, List.flatMap_append, readsBack_append, List.flatMap_cons,
      readsBack_append] at hreads
    exact hreads.2.1
  · have hvalue : valueAfter initial ((Contest.new initial).accesses moves) = c.mutex.value :=
      (congrArg (valueAfter initial) haccesses).symm.trans h.value
    simp [Contest.move, hp, hvalue]

end SpinMutex

end LogPipeline.Sync
