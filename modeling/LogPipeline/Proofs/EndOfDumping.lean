import LogPipeline.Proofs.Reconfiguration

/-!
# Entries taken before dumping ends

A consumer chooses between dumping and printing after it has taken the queue. An
entry it has taken while entries were dumped is dumped if it had made its choice when
dumping is turned off, whatever happens then; if it had yet to choose, it goes on to
print the entry (`taken_leaves_as_chosen`, `printed_though_taken_while_dumping`).
-/

namespace LogPipeline

open Sync

namespace Consumer

/-- A consumer that is taking the queue, or has taken it and not yet chosen what to
do with it. -/
def isUndecided (c : Consumer) : Bool :=
  match c.stage with
  | .takeQueue _ | .choose => true
  | _ => false

theorem not_missed_of_isUndecided {c : Consumer} (h : c.isUndecided = true)
    (setting : Setting) : ¬setting.Missed c.stage := by
  intro hmissed
  have hover := hmissed.handsOver
  unfold isUndecided at h
  split at h
  · next hs => rwa [hs] at hover
  · next hs => rwa [hs] at hover
  · cases h

theorem Sound.undecided_or {c : Consumer} (h : c.Sound) (hne : c.unhandled ≠ []) :
    c.isUndecided = true ∨ c.stage = .dump ∨ Setting.Missed (.dumping true) c.stage := by
  unfold Sound at h
  unfold isUndecided
  cases hs : c.stage with
  | takeQueue call | choose => exact .inl rfl
  | dump => exact .inr (.inl rfl)
  | pickSink | print sink rest => exact .inr (.inr trivial)
  | flush sink => simp [unhandled, hs] at hne
  | top | seekSwitch | noteSwitch found | decide | ended =>
    simp only [hs] at h
    simp [unhandled, taken, hs, h] at hne
  | awaitDump call | checkStop call | idle call | finish call =>
    simp only [hs] at h
    simp [unhandled, taken, hs, h.1] at hne

end Consumer

namespace System

/-- The entry at a place has left with a dump, or is about to. -/
def Dumps (s : System) (n : Nat) (left : List (Entry × Departure)) : Prop :=
  (∃ x, left[n]? = some x ∧ x.2.isDump = true) ∨
    left.length ≤ n ∧ ∃ c ∈ s.pipeline.consumers, c.stage = .dump ∧
      n < left.length + c.draining.length

theorem dumps_afterConsumer {s : System} {n : Nat} {left : List (Entry × Departure)}
    (h : s.Dumps n left) (ho : s.Orderly) {j : Nat} {c : Consumer}
    (hc : s.pipeline.consumers[j]? = some c) :
    (s.afterConsumer j c).Dumps n (left ++ c.departures s.pipeline) := by
  rcases h with ⟨x, hx, hdump⟩ | ⟨hle, d, hd, hs, hlt⟩
  · refine .inl ⟨x, ?_, hdump⟩
    rw [List.getElem?_append_left (List.getElem?_eq_some_iff.1 hx).1, hx]
  · obtain ⟨k, hk⟩ := List.getElem?_of_mem hd
    by_cases hkj : k = j
    · subst hkj
      cases hc.symm.trans hk
      -- the consumer dumps all it has taken
      have hlen : (c.departures s.pipeline).length = c.draining.length := by
        rw [← Consumer.map_fst_departures_dump (p := s.pipeline) hs, List.length_map]
      have hidx : n - left.length < (c.departures s.pipeline).length := by omega
      refine .inl ⟨(c.departures s.pipeline)[n - left.length], ?_, ?_⟩
      · rw [List.getElem?_append_right hle, List.getElem?_eq_getElem hidx]
      · exact Consumer.isDump_of_mem_departures hs (List.getElem_mem hidx)
    · -- the other one has ended
      have hended : c.stage = .ended :=
        by_contra fun hcs => hkj (ho.index_eq hk hc (by simp [hs]) hcs)
      have hnil : c.departures s.pipeline = [] := by simp [Consumer.departures, hended]
      rw [afterConsumer_of_ended hc hended, hnil, List.append_nil]
      exact .inr ⟨hle, d, hd, hs, hlt⟩

theorem dumps_next {s : System} {n : Nat} {left : List (Entry × Departure)}
    (h : s.Dumps n left) (ho : s.Orderly) (m : Move) :
    (s.next m).Dumps n (left ++ s.departedOf m) := by
  have hsame : s.Dumps n (left ++ []) := by rwa [List.append_nil]
  apply next_entries_cases (P := fun s' _ gone => s'.Dumps n (left ++ gone))
  case task =>
    intro i t rest _
    refine hsame.imp_right fun ⟨hle, c, hc, hs, hlt⟩ => ⟨hle, c, ?_, hs, hlt⟩
    rcases Task.step_consumers i s.pipeline t with he | ⟨-, he⟩ <;>
      simp only [afterTask, setCaller_pipeline, he]
    · exact hc
    · exact List.mem_append_left _ hc
  case consumer =>
    intro j c hc
    exact dumps_afterConsumer h ho hc
  case timer =>
    intro j c hc
    refine hsame.imp_right fun ⟨hle, d, hd, hs, hlt⟩ => ⟨hle, d, ?_, hs, hlt⟩
    obtain ⟨k, hk⟩ := List.getElem?_of_mem hd
    have hkeep : (s.pipeline.consumers.set j (c.expire s.pipeline))[k]? = some d := by
      by_cases hjk : j = k
      · subst hjk
        cases hc.symm.trans hk
        have hstill : c.expire s.pipeline = c := by simp [Consumer.expire, hs]
        rw [List.getElem?_set_self (List.getElem?_eq_some_iff.1 hc).1, hstill]
      · rw [List.getElem?_set_ne hjk, hk]
    exact List.mem_of_getElem? hkeep
  all_goals
    intros
    exact hsame

theorem dumps_run {world : World} {front : List Move} {n : Nat}
    (h : (run world front).Dumps n (departed world front)) (after : List Move) :
    (run world (front ++ after)).Dumps n (departed world (front ++ after)) := by
  induction after using List.reverseRecOn with
  | nil => rwa [List.append_nil]
  | append_singleton after m ih =>
    rw [← List.append_assoc, run_concat, departed_concat]
    exact dumps_next ih (orderly_run world _) m

/-! ## What dumping is turned off for -/

/-- Some entries have been taken while they were to be dumped, and a caller is about
to turn dumping off. -/
structure DumpingEnds (world : World) (i n : Nat) (before during : List Move) : Prop where
  /-- The entry at the place has not been taken before. -/
  untaken : (departed world before).length + (run world before).pipeline.inHand.length ≤ n
  dumping : ∀ pre, pre <+: during → (run world (before ++ pre)).pipeline.dumping = true
  taken : n < (departed world (before ++ during)).length +
    (run world (before ++ during)).pipeline.inHand.length
  turnsOff : ∃ rest, ((run world (before ++ during)).caller i).tasks =
    .store (.dumping false) :: rest

/-- A consumer holds the entry at a place, and has yet to choose what to do with it. -/
def Wavers (s : System) (n : Nat) (left : List (Entry × Departure)) : Prop :=
  left.length ≤ n ∧ ∃ c ∈ s.pipeline.consumers, c.isUndecided = true

theorem exists_inHand {s : System} (ho : s.Orderly) (hsound : ∀ c ∈ s.pipeline.consumers, c.Sound)
    (hne : s.pipeline.inHand ≠ []) :
    ∃ c ∈ s.pipeline.consumers, c.unhandled = s.pipeline.inHand := by
  obtain ⟨e, he⟩ := List.exists_mem_of_ne_nil _ hne
  obtain ⟨c, hc, hmem⟩ := List.mem_flatMap.1 he
  obtain ⟨j, hj⟩ := List.getElem?_of_mem hc
  have hs : c.stage ≠ .ended := by
    intro hs
    rw [Consumer.unhandled_of_ended (hsound c hc) hs] at hmem
    cases hmem
  exact ⟨c, hc, (ho.inHand_eq hsound hj hs).symm⟩

/-- When dumping is turned off, an entry taken before leaves with a dump, or the
consumer that holds it has yet to choose. -/
theorem DumpingEnds.dumps_or_wavers {world : World} {i n : Nat} {before during : List Move}
    (h : DumpingEnds world i n before during) :
    (run world (before ++ during)).Dumps n (departed world (before ++ during)) ∨
      (run world (before ++ during)).Wavers n (departed world (before ++ during)) := by
  have ho := orderly_run world (before ++ during)
  have hsound := sound_run world (before ++ during)
  have hheeds : (run world (before ++ during)).Heeds (.dumping true) n
      (departed world (before ++ during)) := heeds_run h.dumping (heeds_of_taken h.untaken)
  have htaken := h.taken
  rcases Nat.lt_or_ge n (departed world (before ++ during)).length with hlt | hge
  · exact .inl (.inl ⟨_, List.getElem?_eq_getElem hlt,
      hheeds.permits n _ (Nat.le_refl n) (List.getElem?_eq_getElem hlt)⟩)
  · have hne : (run world (before ++ during)).pipeline.inHand ≠ [] := by
      intro hnil
      rw [hnil, List.length_nil] at htaken
      omega
    obtain ⟨c, hc, hhand⟩ := exists_inHand ho hsound hne
    rcases (hsound c hc).undecided_or (by rwa [hhand]) with hundecided | hdump | hmissed
    · exact .inr ⟨hge, c, hc, hundecided⟩
    · refine .inl (.inr ⟨hge, c, hc, hdump, ?_⟩)
      have hdraining : c.unhandled = c.draining := by
        simp [Consumer.unhandled, Consumer.taken, hdump]
      rw [← hhand, hdraining] at htaken
      exact htaken
    · have hle := hheeds.missed c hc hmissed
      rw [hhand] at hle
      omega

/-- An entry taken while entries were dumped, and before dumping is turned off, is
dumped if the consumer had by then chosen what to do with it, whatever happens later.
If it had yet to choose, the entry is not dumped, unless dumping is turned on again
before it leaves. What has been printed, and what the files hold, shows it. -/
theorem taken_leaves_as_chosen {world : World} {i n : Nat} {before during : List Move}
    (h : DumpingEnds world i n before during) :
    let wavers := (run world (before ++ during)).Wavers n (departed world (before ++ during))
    let front := before ++ during ++ [.act (.caller i)]
    (¬wavers → ∀ after x, (departed world (front ++ after))[n]? = some x →
      x.2.isDump = true) ∧
    (wavers → ∀ after, (∀ pre, pre <+: after →
        (run world (front ++ pre)).pipeline.dumping = false) →
      ∀ x, (departed world (front ++ after))[n]? = some x → x.2.isDump = false) ∧
    ∀ after, Shows world (front ++ after) := by
  intro wavers front
  refine ⟨?_, ?_, fun after => shows_run world (front ++ after)⟩
  · intro hchosen after x hx
    have hlater := dumps_run (h.dumps_or_wavers.resolve_right hchosen) (.act (.caller i) :: after)
    have hfront : before ++ during ++ .act (.caller i) :: after = front ++ after := by simp [front]
    rw [hfront] at hlater
    rcases hlater with ⟨y, hy, hdump⟩ | ⟨hle, -⟩
    · cases hx.symm.trans hy
      exact hdump
    · have hlt := (List.getElem?_eq_some_iff.1 hx).1
      omega
  · rintro ⟨hle, c, hc, hundecided⟩ after hoff x hx
    -- the step that turns dumping off lets no entry leave, and leaves the consumers
    obtain ⟨rest, htasks⟩ := h.turnsOff
    have hleft : departed world front = departed world (before ++ during) := by
      rw [departed_concat]
      exact List.append_nil _
    have hconsumers : (run world front).pipeline.consumers =
        (run world (before ++ during)).pipeline.consumers := by
      rw [run_concat, next, step_caller_of_cons htasks]
      rfl
    have hheeds : (run world front).Heeds (.dumping false) n (departed world front) := by
      constructor
      · intro d hd hmissed
        rw [hconsumers] at hd
        obtain ⟨j, hj⟩ := List.getElem?_of_mem hc
        obtain ⟨k, hk⟩ := List.getElem?_of_mem hd
        have hcs : c.stage ≠ .ended := by
          intro hs
          simp [Consumer.isUndecided, hs] at hundecided
        have hjk := (orderly_run world _).index_eq hj hk hcs hmissed.handsOver.ne_ended
        subst hjk
        cases hj.symm.trans hk
        exact (Consumer.not_missed_of_isUndecided hundecided _ hmissed).elim
      · intro k y hk hy
        have hlt := (List.getElem?_eq_some_iff.1 hy).1
        rw [hleft] at hlt
        omega
    exact (heeds_run hoff hheeds).permits n x (Nat.le_refl n) hx

/-- Moves after which entries are dumped, a consumer runs, and an entry is queued. -/
def queuedMoves : List Move :=
  Move.begin 0 (.startDump ⟨"app.log"⟩ 33554432 1000 10) ::
    List.replicate 8 (Move.act (.caller 0)) ++
    Move.begin 1 .start :: List.replicate 20 (Move.act (.caller 1)) ++
    Move.begin 2 (.log ⟨.info, "t", [], ⟨"f", 1⟩⟩) :: List.replicate 10 (Move.act (.caller 2))

/-- The consumer takes the queue when the time for it has come, and goes on by some
steps. -/
def takenMoves (steps : Nat) : List Move :=
  List.replicate 6 (Move.act (.consumer 0)) ++ Move.act (.timer 0) ::
    List.replicate steps (Move.act (.consumer 0))

/-- The consumer has chosen to dump the entry, and does so after dumping is turned
off. -/
theorem taken_leaves_as_chosen_of_chosen :
    let world := World.calm ⟨[], []⟩ fun _ => 0
    let during := takenMoves 7 ++ [Move.begin 0 .stopDump]
    DumpingEnds world 0 0 queuedMoves during ∧
      ∃ x, (departed world (queuedMoves ++ during ++ [Move.act (.caller 0)] ++
          [Move.act (.consumer 0)]))[0]? = some x ∧ x.2.isDump = true := by
  intro world during
  have hidle : ((run world (queuedMoves ++ takenMoves 7)).caller 0).tasks.isEmpty = true := by
    decide +kernel
  have hturnsOff : ((run world (queuedMoves ++ during)).caller 0).tasks = Call.stopDump.tasks := by
    rw [← List.append_assoc, run_concat, next, System.begin, if_pos hidle, setCaller_caller_self]
    rfl
  have hdumping : ∀ pre ∈ during.inits,
      (run world (queuedMoves ++ pre)).pipeline.dumping = true := by
    decide +kernel
  have hends : DumpingEnds world 0 0 queuedMoves during :=
    ⟨by decide +kernel, fun pre hpre => hdumping pre ((List.mem_inits _ _).2 hpre),
      by decide +kernel, _, hturnsOff⟩
  have hchosen : ¬(run world (queuedMoves ++ during)).Wavers 0
      (departed world (queuedMoves ++ during)) := by
    rintro ⟨-, hundecided⟩
    revert hundecided
    decide +kernel
  have hleft : (departed world (queuedMoves ++ during ++ [Move.act (.caller 0)] ++
      [Move.act (.consumer 0)])).length = 1 := by
    decide +kernel
  obtain ⟨x, hx⟩ := List.length_eq_one_iff.1 hleft
  have hget : (departed world (queuedMoves ++ during ++ [Move.act (.caller 0)] ++
      [Move.act (.consumer 0)]))[0]? = some x := by rw [hx]; rfl
  exact ⟨hends, x, hget, (taken_leaves_as_chosen hends).1 hchosen _ x hget⟩

/-- An entry that was taken while entries were dumped is printed: dumping is turned
off after the consumer has taken the queue and before it chooses. -/
theorem printed_though_taken_while_dumping :
    let world := World.calm ⟨[], []⟩ fun _ => 0
    let taken := queuedMoves ++ takenMoves 6
    let printed := taken ++ Move.begin 0 .stopDump :: List.replicate 5 (Move.act (.caller 0)) ++
      List.replicate 3 (Move.act (.consumer 0))
    (run world taken).pipeline.dumping = true ∧ (run world taken).pipeline.inHand.length = 1 ∧
      (run world taken).pipeline.consumers.map (fun c => (c.drained, c.isUndecided)) =
        [(1, true)] ∧
      (departed world printed).map (fun x => (x.1.tag, x.2.isDump)) = [("t", false)] ∧
      (run world printed).pipeline.printed.length = 1 ∧
      (run world printed).pipeline.world.disk.has ⟨"app.log"⟩ = false := by
  refine ⟨by decide +kernel, by decide +kernel, by decide +kernel, by decide +kernel,
    by decide +kernel, by decide +kernel⟩

end System

end LogPipeline
