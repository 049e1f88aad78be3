import LogPipeline.Proofs.Exclusion

/-!
# Acquisitions

Between two attempts of an acquisition the others may do to the lock whatever they like, so
that an acquisition is followed over an arbitrary sequence of locks, the `k`-th of which is met
by the attempt that has `k` attempts before it. That attempt is made exactly while the locks
before are held and the budget has not been used up (`after_start_isSome`), and the attempts
that have failed are then counted without an overflow (`Counted`). With this, an acquisition
comes out by the first lock that is free and by its budget alone
(`acquisition_comes_out`).
-/

namespace LogPipeline.Sync

/-- The first free lock of a sequence is this one. -/
def FirstFree (locks : Nat → SpinLock) (k : Nat) : Prop :=
  locks k = .free ∧ ∀ j < k, locks j = .held

/-- What is left to do after an attempt. -/
def Attempt.rest? : Attempt → Option Acquisition
  | again a => some a
  | acquired | refused => none

namespace Acquisition

/-- A budget allows the attempt that has `k` attempts before it. -/
def Allows (budget : UInt32) (k : Nat) : Prop := budget = 0 ∨ k < budget.toNat

/-- What is left of an acquisition after `k` attempts; nothing if it has ended with one of
them. -/
def after (a : Acquisition) (locks : Nat → SpinLock) : Nat → Option Acquisition
  | 0 => some a
  | k + 1 => (a.after locks k).bind fun a => ((locks k).attempt a).1.rest?

/-- An acquisition makes the attempt that has `k` attempts before it, with this outcome, and
leaves the lock so. -/
def Makes (a : Acquisition) (locks : Nat → SpinLock) (k : Nat) (outcome : Attempt)
    (left : SpinLock) : Prop :=
  ∃ a', a.after locks k = some a' ∧ (locks k).attempt a' = (outcome, left)

/-! ## The count of the failed attempts -/

/-- An acquisition that may go on after `k` attempts have failed; they are counted only
against a budget. -/
structure Counted (budget : UInt32) (k : Nat) (a : Acquisition) : Prop where
  budget_eq : a.budget = budget
  failed_eq : a.failed.toNat = if budget = 0 then 0 else k
  allows : Allows budget k

namespace Counted

variable {budget : UInt32} {k : Nat} {a : Acquisition}

theorem start (budget : UInt32) : Counted budget 0 (.start budget) where
  budget_eq := rfl
  failed_eq := by simp [Acquisition.start]
  allows := by
    by_cases h : budget = 0
    · exact .inl h
    · exact .inr (Nat.pos_of_ne_zero fun hz => h (UInt32.toNat_inj.1 hz))

/-- There is room for one more failure in the counter. -/
theorem failed_lt (h : Counted budget k a) : a.failed.toNat + 1 < 2 ^ 32 := by
  have hfailed := h.failed_eq
  have hlt := budget.toNat_lt
  split at hfailed
  · omega
  · next hne =>
    have hk := h.allows.resolve_left hne
    omega

theorem toNat_failed_succ (h : Counted budget k a) :
    (a.failed + 1).toNat = a.failed.toNat + 1 := by
  rw [UInt32.toNat_add]
  exact Nat.mod_eq_of_lt h.failed_lt

/-- A failed attempt is the last one if it uses up the budget, and is counted otherwise. -/
theorem attempt_held (h : Counted budget k a) :
    budget ≠ 0 ∧ k + 1 = budget.toNat ∧ SpinLock.held.attempt a = (.refused, .held) ∨
      ∃ a', Counted budget (k + 1) a' ∧ SpinLock.held.attempt a = (.again a', .held) := by
  by_cases hzero : budget = 0
  · have hagain : SpinLock.held.attempt a = (.again a, .held) := by
      simp [SpinLock.attempt, h.budget_eq, hzero]
    exact .inr ⟨a, ⟨h.budget_eq, by simpa [hzero] using h.failed_eq, .inl hzero⟩, hagain⟩
  · have hk : k < budget.toNat := h.allows.resolve_left hzero
    have hfailed : (a.failed + 1).toNat = k + 1 := by
      rw [h.toNat_failed_succ, h.failed_eq, if_neg hzero]
    have hused : a.budget ≤ a.failed + 1 ↔ budget.toNat ≤ k + 1 := by
      rw [h.budget_eq, UInt32.le_iff_toNat_le, hfailed]
    by_cases hlast : budget.toNat ≤ k + 1
    · have hrefused : SpinLock.held.attempt a = (.refused, .held) := by
        simp [SpinLock.attempt, h.budget_eq, hzero, h.budget_eq ▸ hused.2 hlast]
      exact .inl ⟨hzero, by omega, hrefused⟩
    · have hagain : SpinLock.held.attempt a =
          (.again { a with failed := a.failed + 1 }, .held) := by
        simp [SpinLock.attempt, h.budget_eq, hzero, h.budget_eq ▸ hused.not.2 hlast]
      exact .inr ⟨{ a with failed := a.failed + 1 },
        ⟨h.budget_eq, by rw [hfailed, if_neg hzero], .inr (by omega)⟩, hagain⟩

/-- What an attempt comes to. -/
theorem attempt_cases (h : Counted budget k a) (l : SpinLock) :
    l = .free ∧ l.attempt a = (.acquired, .held) ∨
      l = .held ∧ budget ≠ 0 ∧ k + 1 = budget.toNat ∧ l.attempt a = (.refused, .held) ∨
      l = .held ∧ ∃ a', Counted budget (k + 1) a' ∧ l.attempt a = (.again a', .held) := by
  cases l with
  | free => exact .inl ⟨rfl, rfl⟩
  | held =>
    rcases h.attempt_held with hrefused | hagain
    · exact .inr (.inl ⟨rfl, hrefused⟩)
    · exact .inr (.inr ⟨rfl, hagain⟩)

end Counted

/-! ## How an acquisition comes out -/

variable {budget : UInt32} {locks : Nat → SpinLock} {k : Nat} {a : Acquisition} {left : SpinLock}

theorem after_succ_of_some {a' : Acquisition} (h : a.after locks k = some a') :
    a.after locks (k + 1) = ((locks k).attempt a').1.rest? := by
  rw [after, h, Option.bind_some]

/-- An acquisition that still goes on has met held locks only, and has counted them. -/
theorem counted_after (h : (start budget).after locks k = some a) :
    Counted budget k a ∧ ∀ j < k, locks j = .held := by
  induction k generalizing a with
  | zero =>
    obtain rfl : start budget = a := Option.some.inj h
    exact ⟨.start budget, nofun⟩
  | succ k ih =>
    obtain ⟨a', hafter, hrest⟩ := Option.bind_eq_some_iff.1 h
    obtain ⟨hcounted, hbefore⟩ := ih hafter
    rcases hcounted.attempt_cases (locks k) with
      ⟨-, hacquired⟩ | ⟨-, -, -, hrefused⟩ | ⟨hheld, a'', hcounted', hagain⟩
    · rw [hacquired] at hrest
      cases hrest
    · rw [hrefused] at hrest
      cases hrest
    · rw [hagain] at hrest
      obtain rfl : a'' = a := Option.some.inj hrest
      exact ⟨hcounted', Nat.forall_lt_succ_right.2 ⟨hbefore, hheld⟩⟩

/-- The attempt that has `k` attempts before it is made exactly if none of these has met a free
lock and the budget allows one more. -/
theorem after_start_isSome :
    ((start budget).after locks k).isSome ↔ Allows budget k ∧ ∀ j < k, locks j = .held := by
  constructor
  · intro h
    obtain ⟨a, ha⟩ := Option.isSome_iff_exists.1 h
    obtain ⟨hcounted, hbefore⟩ := counted_after ha
    exact ⟨hcounted.allows, hbefore⟩
  · rintro ⟨hallows, hbefore⟩
    induction k with
    | zero => rfl
    | succ k ih =>
      have hallows' : Allows budget k := hallows.imp_right (Nat.lt_of_succ_lt ·)
      obtain ⟨a, ha⟩ := Option.isSome_iff_exists.1 (ih hallows' fun j hj => hbefore j (by omega))
      rw [after_succ_of_some ha, hbefore k (Nat.lt_succ_self k)]
      rcases (counted_after ha).1.attempt_held with ⟨hne, hlast, -⟩ | ⟨a', -, hagain⟩
      · have hlt := hallows.resolve_left hne
        omega
      · rw [hagain]
        rfl

theorem makes_acquired_iff :
    (start budget).Makes locks k .acquired left ↔
      Allows budget k ∧ FirstFree locks k ∧ left = .held := by
  constructor
  · rintro ⟨a, ha, hattempt⟩
    obtain ⟨hcounted, hbefore⟩ := counted_after ha
    rcases hcounted.attempt_cases (locks k) with
      ⟨hfree, hacquired⟩ | ⟨-, -, -, hrefused⟩ | ⟨-, a', -, hagain⟩
    · have hleft : left = .held := (Prod.mk.inj (hattempt.symm.trans hacquired)).2
      exact ⟨hcounted.allows, ⟨hfree, hbefore⟩, hleft⟩
    · cases hattempt.symm.trans hrefused
    · cases hattempt.symm.trans hagain
  · rintro ⟨hallows, ⟨hfree, hbefore⟩, rfl⟩
    obtain ⟨a, ha⟩ := Option.isSome_iff_exists.1 (after_start_isSome.2 ⟨hallows, hbefore⟩)
    exact ⟨a, ha, by rw [hfree]; rfl⟩

theorem makes_refused_iff :
    (start budget).Makes locks k .refused left ↔
      budget ≠ 0 ∧ k + 1 = budget.toNat ∧ (∀ j < budget.toNat, locks j = .held) ∧
        left = locks k := by
  constructor
  · rintro ⟨a, ha, hattempt⟩
    obtain ⟨hcounted, hbefore⟩ := counted_after ha
    rcases hcounted.attempt_cases (locks k) with
      ⟨-, hacquired⟩ | ⟨hheld, hne, hlast, hrefused⟩ | ⟨-, a', -, hagain⟩
    · cases hattempt.symm.trans hacquired
    · have hleft : left = .held := (Prod.mk.inj (hattempt.symm.trans hrefused)).2
      refine ⟨hne, hlast, ?_, hleft.trans hheld.symm⟩
      rw [← hlast]
      exact Nat.forall_lt_succ_right.2 ⟨hbefore, hheld⟩
    · cases hattempt.symm.trans hagain
  · rintro ⟨hne, hlast, hheld, rfl⟩
    have hbefore : ∀ j < k, locks j = .held := fun j hj => hheld j (by omega)
    have hallows : Allows budget k := .inr (hlast ▸ Nat.lt_succ_self k)
    obtain ⟨a, ha⟩ := Option.isSome_iff_exists.1 (after_start_isSome.2 ⟨hallows, hbefore⟩)
    have hlock := hheld k (by omega)
    refine ⟨a, ha, ?_⟩
    rw [hlock]
    rcases (counted_after ha).1.attempt_held with ⟨-, -, hrefused⟩ | ⟨a', hcounted', -⟩
    · exact hrefused
    · have hlt := hcounted'.allows.resolve_left hne
      omega

/-- An attempt that does not get the lock leaves it as it is. -/
theorem Makes.left_eq {outcome : Attempt} (h : a.Makes locks k outcome left)
    (hne : outcome ≠ .acquired) : left = locks k := by
  obtain ⟨a', -, hattempt⟩ := h
  cases hlock : locks k with
  | free =>
    rw [hlock] at hattempt
    exact absurd (Prod.mk.inj hattempt).1.symm hne
  | held =>
    rw [hlock] at hattempt
    rcases SpinLock.attempt_held a' with ⟨-, hrefused⟩ | ⟨a'', -, hagain⟩
    · exact (Prod.mk.inj (hattempt.symm.trans hrefused)).2
    · exact (Prod.mk.inj (hattempt.symm.trans hagain)).2

end Acquisition

/-- A whole acquisition of a lock that nobody else touches comes out as its attempts do. -/
theorem SpinLock.tryAcquire_iff (budget : UInt32) (l : SpinLock) :
    (∀ left, l.tryAcquire budget = some (.ok left) ↔
      ∃ k, (Acquisition.start budget).Makes (fun _ => l) k .acquired left) ∧
    (∀ e, l.tryAcquire budget = some (.error e) ↔
      e = .lockBusy ∧ ∃ k left, (Acquisition.start budget).Makes (fun _ => l) k .refused left) ∧
    (l.tryAcquire budget = none ↔
      ∀ k, ((Acquisition.start budget).after (fun _ => l) k).isSome) := by
  simp only [Acquisition.makes_acquired_iff, Acquisition.makes_refused_iff,
    Acquisition.after_start_isSome]
  have hfirst : Acquisition.Allows budget 0 := (Acquisition.Counted.start budget).allows
  cases l with
  | free =>
    refine ⟨fun left => ⟨fun h => ?_, ?_⟩, fun e => ⟨nofun, ?_⟩, ⟨nofun, fun h => ?_⟩⟩
    · cases h
      exact ⟨0, hfirst, ⟨rfl, nofun⟩, rfl⟩
    · rintro ⟨k, -, -, rfl⟩
      rfl
    · rintro ⟨-, k, left, -, hk, hheld, -⟩
      cases hheld k (by omega)
    · cases (h 1).2 0 Nat.zero_lt_one
  | held =>
    by_cases hzero : budget = 0
    · simp [tryAcquire, hzero, FirstFree, Acquisition.Allows]
    · have hne : budget.toNat ≠ 0 := fun h => hzero (UInt32.toNat_inj.1 h)
      have hlast : ∃ k, k + 1 = budget.toNat := ⟨budget.toNat - 1, by omega⟩
      have hends : ¬∀ k, Acquisition.Allows budget k := fun h =>
        Nat.lt_irrefl _ ((h budget.toNat).resolve_left hzero)
      simp [tryAcquire, hzero, FirstFree, hlast, hends, eq_comm]

namespace SpinMutex.Contest

variable {α : Type} {c : Contest α} {met : Nat → Contest α} {i k : Nat} {p : Party α}

/-- Where a party stands after `k` attempts, each of which meets one of the given contests:
between two attempts the others may do whatever they like, which leaves the party where it
is. -/
def standing (met : Nat → Contest α) (i : Nat) (p : Party α) : Nat → Party α
  | 0 => p
  | k + 1 => (((met k).setParty i (standing met i p k)).move i .attempt).2.party i

/-- What comes of the attempt that has `k` attempts before it. -/
def tried (met : Nat → Contest α) (i : Nat) (p : Party α) (k : Nat) : Reply α × Contest α :=
  ((met k).setParty i (standing met i p k)).move i .attempt

/-- The locks that the attempts meet. -/
def locks (met : Nat → Contest α) (k : Nat) : SpinLock := (met k).mutex.lock

theorem standing_succ : standing met i p (k + 1) = (tried met i p k).2.party i := rfl

/-- An attempt that gets the guard changes only the lock, and any other one nothing. -/
theorem mutex_attempt (c : Contest α) (i : Nat) :
    ((c.move i .attempt).1 = .acquired →
        (c.move i .attempt).2.mutex = { c.mutex with lock := .held }) ∧
      ((c.move i .attempt).1 ≠ .acquired → (c.move i .attempt).2.mutex = c.mutex) := by
  have hmoves := c.moves_move i .attempt
  generalize (c.move i .attempt).1 = r at hmoves
  generalize (c.move i .attempt).2 = c' at hmoves
  cases hmoves with
  | take => exact ⟨fun _ => rfl, absurd rfl⟩
  | stay _ _ acquired => exact ⟨fun h => absurd h acquired, fun _ => rfl⟩
  | ignore => exact ⟨nofun, fun _ => rfl⟩

/-! ## A guard in a limited number of attempts -/

/-- A party that tries stands where its acquisition is, and tries no more once that has
ended. -/
theorem standing_trying (met : Nat → Contest α) (i : Nat) (a : Acquisition) (k : Nat) :
    (∀ a', a.after (locks met) k = some a' → standing met i (.trying a) k = .trying a') ∧
      (a.after (locks met) k = none → standing met i (.trying a) k = .outside ∨
        ∃ v, standing met i (.trying a) k = .inside v) := by
  induction k with
  | zero => exact ⟨fun a' h => congrArg Party.trying (Option.some.inj h), nofun⟩
  | succ k ih =>
    rw [standing_succ, tried]
    cases hafter : a.after (locks met) k with
    | none =>
      have hnone : a.after (locks met) (k + 1) = none := by rw [Acquisition.after, hafter]; rfl
      refine ⟨fun a' h => absurd (hnone.symm.trans h) nofun, fun _ => ?_⟩
      rcases ih.2 hafter with hout | ⟨v, hin⟩
      · exact .inl (by simp [hout, move])
      · exact .inr ⟨v, by simp [hin, move]⟩
    | some a' =>
      rw [Acquisition.after_succ_of_some hafter, ih.1 a' hafter]
      cases hattempt : (met k).mutex.lock.attempt a' with
      | mk outcome left =>
        cases outcome <;> simp [locks, move, attempt, hattempt, Attempt.rest?]

/-- A party that tries is told how its acquisition comes out. -/
theorem tried_trying (met : Nat → Contest α) (i : Nat) (a : Acquisition) (k : Nat) :
    ((tried met i (.trying a) k).1 = .acquired ↔
        ∃ left, a.Makes (locks met) k .acquired left) ∧
      ∀ e, (tried met i (.trying a) k).1 = .failed e ↔
        e = .lockBusy ∧ ∃ left, a.Makes (locks met) k .refused left := by
  obtain ⟨hsome, hnone⟩ := standing_trying met i a k
  rw [tried]
  cases hafter : a.after (locks met) k with
  | none =>
    have hsilent : (((met k).setParty i (standing met i (.trying a) k)).move i .attempt).1 =
        .silent := by
      rcases hnone hafter with hout | ⟨v, hin⟩
      · simp [hout, move]
      · simp [hin, move]
    simp [hsilent, Acquisition.Makes, hafter]
  | some a' =>
    rw [hsome a' hafter]
    cases hattempt : (met k).mutex.lock.attempt a' with
    | mk outcome left =>
      cases outcome <;>
        simp [locks, move, attempt, hattempt, Acquisition.Makes, hafter, eq_comm]

/-! ## A guard however long it takes -/

/-- Each attempt of a party that wants the guard however long it takes is an acquisition of its
own, which gives up at once. -/
theorem attempt_start_one : SpinLock.held.attempt (.start 1) = (.refused, .held) := rfl

/-- A party that wants the guard however long it takes goes on while the lock is held. -/
theorem standing_locking (met : Nat → Contest α) (i k : Nat) :
    ((∀ j < k, locks met j = .held) → standing met i .locking k = .locking) ∧
      (¬(∀ j < k, locks met j = .held) → ∃ v, standing met i .locking k = .inside v) := by
  induction k with
  | zero => exact ⟨fun _ => rfl, fun h => absurd nofun h⟩
  | succ k ih =>
    rw [standing_succ, tried]
    by_cases hbefore : ∀ j < k, locks met j = .held
    · rw [ih.1 hbefore]
      cases hlock : (met k).mutex.lock with
      | free =>
        refine ⟨fun h => ?_, fun _ => ⟨(met k).mutex.value, ?_⟩⟩
        · cases hlock.symm.trans (h k (Nat.lt_succ_self k))
        · simp [move, attempt, hlock, SpinLock.attempt]
      | held =>
        refine ⟨fun _ => by simp [move, attempt, hlock, attempt_start_one], fun h => ?_⟩
        exact absurd (Nat.forall_lt_succ_right.2 ⟨hbefore, hlock⟩) h
    · obtain ⟨v, hv⟩ := ih.2 hbefore
      refine ⟨fun h => absurd (fun j hj => h j (Nat.lt_succ_of_lt hj)) hbefore, fun _ => ?_⟩
      exact ⟨v, by simp [hv, move]⟩

theorem tried_locking (met : Nat → Contest α) (i k : Nat) :
    ((tried met i .locking k).1 = .acquired ↔ FirstFree (locks met) k) ∧
      ∀ e, (tried met i .locking k).1 ≠ .failed e := by
  obtain ⟨hgoes, hends⟩ := standing_locking met i k
  rw [tried]
  by_cases hbefore : ∀ j < k, locks met j = .held
  · rw [hgoes hbefore]
    cases hlock : (met k).mutex.lock with
    | free =>
      have hfirst : FirstFree (locks met) k := ⟨hlock, hbefore⟩
      simp [move, attempt, hlock, SpinLock.attempt, hfirst]
    | held =>
      have hfirst : ¬FirstFree (locks met) k := fun h => by cases hlock.symm.trans h.1
      simp [move, attempt, hlock, attempt_start_one, hfirst]
  · obtain ⟨v, hv⟩ := hends hbefore
    have hfirst : ¬FirstFree (locks met) k := fun h => hbefore h.2
    simp [hv, move, hfirst]

end SpinMutex.Contest

open SpinMutex in
/-- Whatever the lock is when the attempts of an acquisition are made: it takes the lock with
the first attempt that finds it free, if its budget allows that one, and is refused exactly with
the last attempt that the budget allows, if all have found the lock held; no other attempt
changes the lock, and the failed ones are counted without an overflow. An unlimited one is never
refused. So it is for a party that tries for the guard of a mutex, and one that wants it however
long it takes gets it with the first attempt that finds the lock free and never fails. -/
theorem acquisition_comes_out {α : Type} (budget : UInt32) (locks : Nat → SpinLock)
    (met : Nat → Contest α) (i : Nat) :
    (∀ k left, (Acquisition.start budget).Makes locks k .acquired left ↔
      Acquisition.Allows budget k ∧ FirstFree locks k ∧ left = .held) ∧
    (∀ k left, (Acquisition.start budget).Makes locks k .refused left ↔
      budget ≠ 0 ∧ k + 1 = budget.toNat ∧ (∀ j < budget.toNat, locks j = .held) ∧
        left = locks k) ∧
    (∀ k, ((Acquisition.start budget).after locks k).isSome ↔
      Acquisition.Allows budget k ∧ ∀ j < k, locks j = .held) ∧
    (∀ k a left, (Acquisition.start budget).Makes locks k (.again a) left → left = locks k) ∧
    (∀ k a, (Acquisition.start budget).after locks k = some a →
      a.failed.toNat = (if budget = 0 then 0 else k) ∧ (a.failed + 1).toNat = a.failed.toNat + 1) ∧
    (∀ k, (Contest.tried met i (.trying (.start budget)) k).1 = .acquired ↔
      Acquisition.Allows budget k ∧ FirstFree (Contest.locks met) k) ∧
    (∀ k e, (Contest.tried met i (.trying (.start budget)) k).1 = .failed e ↔
      e = .lockBusy ∧ budget ≠ 0 ∧ k + 1 = budget.toNat ∧
        ∀ j < budget.toNat, Contest.locks met j = .held) ∧
    (∀ k, (Contest.tried met i .locking k).1 = .acquired ↔ FirstFree (Contest.locks met) k) ∧
    (∀ k e, (Contest.tried met i .locking k).1 ≠ .failed e) ∧
    ∀ p k, ((Contest.tried met i p k).1 = .acquired →
        (Contest.tried met i p k).2.mutex = { (met k).mutex with lock := .held }) ∧
      ((Contest.tried met i p k).1 ≠ .acquired →
        (Contest.tried met i p k).2.mutex = (met k).mutex) := by
  refine ⟨fun k left => Acquisition.makes_acquired_iff, fun k left => Acquisition.makes_refused_iff,
    fun k => Acquisition.after_start_isSome, fun k a left h => h.left_eq nofun, fun k a h => ?_,
    fun k => ?_, fun k e => ?_, fun k => (Contest.tried_locking met i k).1,
    fun k => (Contest.tried_locking met i k).2, fun p k => Contest.mutex_attempt _ i⟩
  · have hcounted := (Acquisition.counted_after h).1
    exact ⟨hcounted.failed_eq, hcounted.toNat_failed_succ⟩
  · rw [(Contest.tried_trying met i _ k).1]
    simp [Acquisition.makes_acquired_iff]
  · rw [(Contest.tried_trying met i _ k).2]
    simp [Acquisition.makes_refused_iff]

end LogPipeline.Sync
