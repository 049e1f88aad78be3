import LogPipeline.Proofs.DebugSwitch
import LogPipeline.Proofs.Session.Settings

/-!
# Naming the debug switch file

A caller that names the switch file stores the name and then takes the switch back
(`Call.switchFileTasks`). A consumer that has found the file named before, and says so
only after that, sets the switch again, although it has not looked for the file that is
named now, and even if none is (`switch_on_without_file`). Nothing else does:
`switch_follows_file` shows that, unless there was such a consumer when the name was
stored, the switch is on for as long as the name lasts only after a refresh that has
looked for the named file and found it.
-/

namespace LogPipeline

namespace Consumer

/-- A consumer that has found the switch file has just looked for the one that is named. -/
theorem noted_of_step {p : Pipeline} {c : Consumer} (h : (c.step p).2.noted = some true) :
    c.stage = .seekSwitch ∧ switchFound p = true := by
  cases hs : c.stage with
  | seekSwitch => exact ⟨rfl, by simpa [step, noted, hs] using h⟩
  | top =>
    cases hd : p.dumping <;> simp [step, noted, hs, hd] at h
  | print sink rest =>
    cases rest with
    | nil => simp [step, noted, hs] at h
    | cons e rest =>
      simp only [step, hs] at h
      split at h <;> simp [noted] at h
  | decide =>
    simp only [step, noted, hs, nextRound] at h
    split at h
    · next hstage =>
      split at hstage
      · cases hstage
      · split at hstage <;> cases hstage
    · cases h
  | awaitDump call | idle call | finish call =>
    simp only [step, noted, hs] at h
    split at h
    · next hstage => split at hstage <;> cases hstage
    · cases h
  | checkStop call | takeQueue call =>
    simp only [step, hs] at h
    split at h <;> simp [noted] at h
  | choose =>
    simp only [step, noted, hs] at h
    split at h
    · next hstage =>
      split at hstage
      · cases hstage
      · split at hstage <;> cases hstage
    · cases h
  | noteSwitch found | dump | pickSink | flush sink | ended => simp [step, noted, hs] at h

theorem noted_expire (p : Pipeline) (c : Consumer) : (c.expire p).noted = c.noted := by
  unfold expire
  split
  · next hs => simp [noted, hs]
  · next hs => simp [noted, hs]
  · rfl

theorem stage_of_noted {c : Consumer} {found : Bool} (h : c.noted = some found) :
    c.stage = .noteSwitch found := by
  unfold noted at h
  split at h
  · next hs => rw [hs, Option.some.inj h]
  · cases h

end Consumer

namespace System

/-! ## Names and refreshes -/

/-- A caller names the switch file, or that there is none. -/
def Names (s : System) (m : Move) : Prop :=
  ∃ i p rest, m = .act (.caller i) ∧ (s.caller i).tasks = .store (.switchFile p) :: rest

/-- Nobody names a switch file in a part of a run. -/
def Unnamed (world : World) (front part : List Move) : Prop :=
  ∀ pre m, pre ++ [m] <+: part → ¬(run world (front ++ pre)).Names m

/-- A consumer looks for the switch file, which is the given one, and finds it. -/
def Finds (s : System) (file : Path) (m : Move) : Prop :=
  ∃ k c, m = .act (.consumer k) ∧ s.pipeline.consumers[k]? = some c ∧ c.stage = .seekSwitch ∧
    s.pipeline.switchFile = some file ∧ s.pipeline.world.disk.has file = true

/-- From a point of a run on, a refresh has looked for the named file and found it. -/
def FoundSince (world : World) (front since : List Move) (p : Option Path) : Prop :=
  ∃ file, p = some file ∧
    ∃ pre m, pre ++ [m] <+: since ∧ (run world (front ++ pre)).Finds file m

theorem Unnamed.of_concat {world : World} {front part : List Move} {m : Move}
    (h : Unnamed world front (part ++ [m])) :
    Unnamed world front part ∧ ¬(run world (front ++ part)).Names m :=
  ⟨fun pre m' hpre => h pre m' (hpre.trans (List.prefix_append _ _)),
    h part m (List.prefix_refl _)⟩

theorem Unnamed.append {world : World} {front part after : List Move}
    (h : Unnamed world front part) (hafter : Unnamed world (front ++ part) after) :
    Unnamed world front (part ++ after) := by
  induction after using List.reverseRecOn with
  | nil => rwa [List.append_nil]
  | append_singleton after m ih =>
    obtain ⟨hbefore, hm⟩ := hafter.of_concat
    intro pre m' hpre
    rw [← List.append_assoc] at hpre
    rcases List.prefix_concat_iff.1 hpre with heq | hpre
    · obtain ⟨rfl, hmm⟩ := List.append_inj' heq rfl
      rwa [List.singleton_inj.1 hmm, ← List.append_assoc]
    · exact ih hbefore pre m' hpre

theorem FoundSince.concat {world : World} {front since : List Move} {p : Option Path}
    (h : FoundSince world front since p) (m : Move) : FoundSince world front (since ++ [m]) p := by
  obtain ⟨file, hp, pre, m', hpre, hfinds⟩ := h
  exact ⟨file, hp, pre, m', hpre.trans (List.prefix_append _ _), hfinds⟩

/-- The name of the switch file stays until it is named anew. -/
theorem switchFile_next {s : System} {m : Move} (h : ¬s.Names m) :
    (s.next m).pipeline.switchFile = s.pipeline.switchFile := by
  rcases s.settings_next m with hset | ⟨i, x, rest, hm, ht, hset⟩
  · exact congrArg Settings.switchFile hset
  · refine (congrArg Settings.switchFile hset).trans ?_
    cases x with
    | switchFile p => exact (h ⟨i, p, rest, hm, ht⟩).elim
    | _ => rfl

theorem Unnamed.switchFile {world : World} {front part : List Move}
    (h : Unnamed world front part) :
    (run world (front ++ part)).pipeline.switchFile = (run world front).pipeline.switchFile := by
  induction part using List.reverseRecOn with
  | nil => rw [List.append_nil]
  | append_singleton part m ih =>
    obtain ⟨hbefore, hm⟩ := h.of_concat
    rw [run_append_concat, switchFile_next hm, ih hbefore]

/-- A consumer that has found the switch file has found it with the last move, or has
still not said so. -/
theorem noted_next {s : System} {m : Move} {k : Nat} {d : Consumer}
    (hd : (s.next m).pipeline.consumers[k]? = some d) (hnoted : d.noted = some true) :
    (∃ file, s.Finds file m) ∨
      ∃ c, s.pipeline.consumers[k]? = some c ∧ c.noted = some true ∧ m ≠ .act (.consumer k) := by
  by_cases hm : m = .act (.consumer k)
  · left
    subst hm
    cases hc : s.pipeline.consumers[k]? with
    | none => simp [next, step, Pipeline.stepConsumer, hc] at hd
    | some c =>
      obtain ⟨hlt, -⟩ := List.getElem?_eq_some_iff.1 hc
      rw [next, step_consumer_of_some hc] at hd
      obtain rfl : (c.step s.pipeline).2 = d := by simpa [afterConsumer, hlt] using hd
      obtain ⟨hseek, hfound⟩ := Consumer.noted_of_step hnoted
      unfold Consumer.switchFound at hfound
      split at hfound
      · next file hfile => exact ⟨file, k, c, rfl, hc, hseek, hfile, hfound⟩
      · cases hfound
  · right
    rcases next_consumer hd with rfl | ⟨c, hc, -⟩
    · cases hnoted
    · obtain ⟨d', hd', hcases⟩ := consumer_next_of_ne hc hm
      cases hd'.symm.trans hd
      refine ⟨c, hc, ?_, hm⟩
      rcases hcases with rfl | rfl
      · exact hnoted
      · rwa [Consumer.noted_expire] at hnoted

/-! ## A call that names the file -/

/-- A caller stores the name of the switch file with one move and takes the switch
back with its next one. In between the others go on, and nobody else names a file. -/
structure Naming (world : World) (i : Nat) (p : Option Path) (before during : List Move) :
    Prop where
  tasks : ∃ rest, ((run world before).caller i).tasks = Call.switchFileTasks p ++ rest
  others : .act (.caller i) ∉ during
  alone : Unnamed world (before ++ [.act (.caller i)]) during

/-- When the switch file is named anew, a consumer has found the one named before, and
it does not say so for some time. -/
def Stale (world : World) (before during : List Move) : Prop :=
  ∃ k c, (run world before).pipeline.consumers[k]? = some c ∧ c.noted = some true ∧
    .act (.consumer k) ∉ during

/-- What a refresh finds while a name lasts, it finds for the named file. -/
theorem foundSince_of_finds {world : World} {front since : List Move} {m : Move} {file : Path}
    (hunnamed : Unnamed world front since) (h : (run world (front ++ since)).Finds file m) :
    FoundSince world front (since ++ [m]) (run world front).pipeline.switchFile := by
  have hfile : (run world front).pipeline.switchFile = some file := by
    obtain ⟨-, -, -, -, -, hfile, -⟩ := h
    rw [← hunnamed.switchFile, hfile]
  exact ⟨file, hfile, since, m, List.prefix_refl _, h⟩

/-- All that is or will be said of the switch file has been found since a point of a
run from which on its name has lasted. -/
structure Vouched (world : World) (front since : List Move) : Prop where
  switch : (run world (front ++ since)).pipeline.switchOn = true →
    FoundSince world front since (run world front).pipeline.switchFile
  noted : ∀ (k : Nat) (c : Consumer), (run world (front ++ since)).pipeline.consumers[k]? = some c →
    c.noted = some true → FoundSince world front since (run world front).pipeline.switchFile

theorem Vouched.concat {world : World} {front since : List Move} {m : Move}
    (h : Vouched world front since) (hunnamed : Unnamed world front since) :
    Vouched world front (since ++ [m]) where
  switch hon := by
    rw [run_append_concat] at hon
    rcases switchOn_of_next hon with hnoted | ⟨-, hon⟩
    · obtain ⟨k, c, -, hc, hfound⟩ := consumer_of_noted hnoted
      exact (h.noted k c hc hfound).concat m
    · exact (h.switch hon).concat m
  noted k d hd hnoted := by
    rw [run_append_concat] at hd
    rcases noted_next hd hnoted with ⟨file, hfinds⟩ | ⟨c, hc, hnoted, -⟩
    · exact foundSince_of_finds hunnamed hfinds
    · exact (h.noted k c hc hnoted).concat m

namespace Naming

variable {world : World} {i : Nat} {p : Option Path} {before during : List Move}

/-- A caller that has begun a call to name a file has that before it until it moves. -/
theorem of_call {front waiting : List Move} (hidle : ((run world front).caller i).tasks = [])
    (hwaiting : .act (.caller i) ∉ waiting) (hothers : .act (.caller i) ∉ during)
    (halone : Unnamed world (front ++ [.begin i (.setSwitchFile p)] ++ waiting ++
      [.act (.caller i)]) during) :
    Naming world i p (front ++ [.begin i (.setSwitchFile p)] ++ waiting) during := by
  have hbegun : ((run world (front ++ [.begin i (.setSwitchFile p)])).caller i).tasks =
      Call.switchFileTasks p := by
    rw [run_concat, next, begin_of_nil hidle, setCaller_caller_self]
    rfl
  refine ⟨⟨[], ?_⟩, hothers, halone⟩
  rw [caller_run_of_notMem (by rw [hbegun]; exact List.cons_ne_nil _ _) hwaiting, hbegun,
    List.append_nil]

/-- The name that the caller has stored. -/
theorem switchFile_eq (h : Naming world i p before during) :
    (run world (before ++ [.act (.caller i)])).pipeline.switchFile = p := by
  obtain ⟨rest, ht⟩ := h.tasks
  rw [run_concat, next, step_caller_of_cons ht]
  rfl

/-- While the others go on, the caller is about to take the switch back. -/
theorem tasks_of_prefix (h : Naming world i p before during) {pre : List Move}
    (hpre : pre <+: during) :
    ∃ rest, ((run world (before ++ [.act (.caller i)] ++ pre)).caller i).tasks =
      .store .switchOff :: rest := by
  obtain ⟨rest, ht⟩ := h.tasks
  have hnext : ((run world (before ++ [.act (.caller i)])).caller i).tasks =
      .store .switchOff :: rest := by
    rw [run_concat, next, step_caller_of_cons ht, afterTask, setCaller_caller_self]
    rfl
  refine ⟨rest, ?_⟩
  rw [caller_run_of_notMem (by rw [hnext]; exact List.cons_ne_nil _ _) fun hmem =>
    h.others (hpre.subset hmem), hnext]

/-- Taking the switch back names no file. -/
theorem unnamed_call (h : Naming world i p before during) :
    Unnamed world (before ++ [.act (.caller i)]) (during ++ [.act (.caller i)]) := by
  intro pre m hpre
  rcases List.prefix_concat_iff.1 hpre with heq | hpre
  · obtain ⟨rfl, hm⟩ := List.append_inj' heq rfl
    obtain ⟨rest, ht⟩ := h.tasks_of_prefix (List.prefix_refl _)
    rintro ⟨j, q, rest', hj, ht'⟩
    cases (List.singleton_inj.1 hm).symm.trans hj
    cases ht.symm.trans ht'
  · exact h.alone pre m hpre

/-- What has been found but not said during the call, has been found for the new name,
or by a consumer that had found the file before. -/
theorem noted_of_prefix (h : Naming world i p before during) {pre : List Move}
    (hpre : pre <+: during) {k : Nat} {c : Consumer}
    (hc : (run world (before ++ [.act (.caller i)] ++ pre)).pipeline.consumers[k]? = some c)
    (hnoted : c.noted = some true) :
    FoundSince world (before ++ [.act (.caller i)]) pre p ∨
      ∃ c₀, (run world before).pipeline.consumers[k]? = some c₀ ∧ c₀.noted = some true ∧
        .act (.consumer k) ∉ pre := by
  induction pre using List.reverseRecOn generalizing c with
  | nil =>
    rw [List.append_nil, run_concat] at hc
    rcases noted_next hc hnoted with ⟨file, j, -, hj, -⟩ | ⟨c₀, hc₀, hnoted₀, -⟩
    · cases hj
    · exact .inr ⟨c₀, hc₀, hnoted₀, List.not_mem_nil⟩
  | append_singleton pre m ih =>
    have hbefore : pre <+: during := (List.prefix_append _ _).trans hpre
    rw [run_append_concat] at hc
    rcases noted_next hc hnoted with ⟨file, hfinds⟩ | ⟨c', hc', hnoted', hm⟩
    · left
      have hunnamed : Unnamed world (before ++ [.act (.caller i)]) pre := fun pre' m' hpre' =>
        h.alone pre' m' (hpre'.trans hbefore)
      exact h.switchFile_eq ▸ foundSince_of_finds hunnamed hfinds
    · rcases ih hbefore hc' hnoted' with hfound | ⟨c₀, hc₀, hnoted₀, hk⟩
      · exact .inl (hfound.concat m)
      · refine .inr ⟨c₀, hc₀, hnoted₀, fun hmem => ?_⟩
        rcases List.mem_append.1 hmem with hmem | hmem
        · exact hk hmem
        · exact hm (List.mem_singleton.1 hmem).symm

/-- When the call is over, and no consumer was slow to say what it had found, only what
has been found for the new name is said. -/
theorem vouched (h : Naming world i p before during) (hstale : ¬Stale world before during) :
    Vouched world (before ++ [.act (.caller i)]) (during ++ [.act (.caller i)]) := by
  constructor
  · intro hon
    obtain ⟨rest, ht⟩ := h.tasks_of_prefix (List.prefix_refl _)
    rw [run_append_concat, next, step_caller_of_cons ht] at hon
    cases hon
  · intro k d hd hnoted
    rw [h.switchFile_eq]
    rw [run_append_concat] at hd
    rcases noted_next hd hnoted with ⟨file, j, -, hj, -⟩ | ⟨c, hc, hnoted, -⟩
    · cases hj
    · rcases h.noted_of_prefix (List.prefix_refl _) hc hnoted with hfound | ⟨c₀, hc₀, hnoted₀, hk⟩
      · exact hfound.concat _
      · exact (hstale ⟨k, c₀, hc₀, hnoted₀, hk⟩).elim

end Naming

/-! ## A consumer that is slow to say what it has found -/

/-- A consumer that has found the switch file stays there until its next step. -/
theorem noted_run {world : World} {front part : List Move} {k : Nat} {c : Consumer}
    (hc : (run world front).pipeline.consumers[k]? = some c) (hnoted : c.noted = some true)
    (hk : .act (.consumer k) ∉ part) :
    ∃ d, (run world (front ++ part)).pipeline.consumers[k]? = some d ∧ d.noted = some true := by
  induction part using List.reverseRecOn with
  | nil => exact ⟨c, by rw [List.append_nil, hc], hnoted⟩
  | append_singleton part m ih =>
    obtain ⟨d, hd, hdnoted⟩ := ih fun hmem => hk (List.mem_append_left _ hmem)
    have hm : m ≠ .act (.consumer k) := fun hm => hk (by simp [hm])
    obtain ⟨d', hd', hcases⟩ := consumer_next_of_ne hd hm
    refine ⟨d', by rw [run_append_concat, hd'], ?_⟩
    rcases hcases with rfl | rfl
    · exact hdnoted
    · rw [Consumer.noted_expire, hdnoted]

/-- While a consumer has found the switch file and not said so, no other looks for it. -/
theorem not_finds_of_noted {world : World} {ms : List Move} {k : Nat} {c : Consumer}
    (hc : (run world ms).pipeline.consumers[k]? = some c) (hnoted : c.noted = some true)
    (m : Move) (file : Path) : ¬(run world ms).Finds file m := by
  rintro ⟨j, d, -, hd, hseek, -⟩
  have hstage := Consumer.stage_of_noted hnoted
  obtain rfl := (orderly_run world ms).index_eq hd hc (by simp [hseek]) (by simp [hstage])
  cases hd.symm.trans hc
  cases hseek.symm.trans hstage

/-- From the return of a call that names the switch file until the next naming, the
switch is on only if a refresh has looked for the named file and found it, unless a
consumer had found the file named before and was slow to say so: then the switch comes
on with nothing found. -/
theorem switch_follows_file {world : World} {i : Nat} {p : Option Path}
    {before during : List Move} (h : Naming world i p before during) :
    let named := before ++ [.act (.caller i)]
    let call := during ++ [.act (.caller i)]
    (¬Stale world before during → ∀ after, Unnamed world (named ++ call) after →
        (run world (named ++ (call ++ after))).pipeline.switchOn = true →
        FoundSince world named (call ++ after) p) ∧
      (Stale world before during → ∃ after, Unnamed world (named ++ call) after ∧
        (run world (named ++ (call ++ after))).pipeline.switchOn = true ∧
        ¬FoundSince world named (call ++ after) p) := by
  intro named call
  constructor
  · intro hstale after hafter hon
    have hvouched : Vouched world named (call ++ after) := by
      clear hon
      induction after using List.reverseRecOn with
      | nil => exact (List.append_nil call).symm ▸ h.vouched hstale
      | append_singleton after m ih =>
        obtain ⟨hbefore, -⟩ := hafter.of_concat
        rw [← List.append_assoc]
        exact (ih hbefore).concat (h.unnamed_call.append hbefore)
    exact h.switchFile_eq ▸ hvouched.switch hon
  · rintro ⟨k, c, hc, hnoted, hk⟩
    -- until its next step the consumer has found the file and not said so
    have hwaits : ∀ pre, pre <+: call → ∃ d, (run world (named ++ pre)).pipeline.consumers[k]? =
        some d ∧ d.noted = some true := by
      intro pre hpre
      rw [List.append_assoc]
      refine noted_run hc hnoted fun hmem => ?_
      rcases List.mem_append.1 hmem with hmem | hmem
      · cases List.mem_singleton.1 hmem
      · rcases List.mem_append.1 (hpre.subset hmem) with hmem | hmem
        · exact hk hmem
        · cases List.mem_singleton.1 hmem
    refine ⟨[.act (.consumer k)], ?_, ?_, ?_⟩
    · rintro pre m hpre ⟨j, q, rest, rfl, -⟩
      cases List.mem_singleton.1 (hpre.subset (List.mem_append_right _ List.mem_cons_self))
    · obtain ⟨d, hd, hdnoted⟩ := hwaits call (List.prefix_refl _)
      rw [run_append_concat, next, step_consumer_of_some hd]
      simp [afterConsumer, Consumer.step_switchOn, hdnoted]
    · rintro ⟨file, -, pre, m, hpre, hfinds⟩
      have hprefix : pre <+: call := by
        rcases List.prefix_concat_iff.1 hpre with heq | hpre
        · rw [(List.append_inj' heq rfl).1]
        · exact (List.prefix_append _ _).trans hpre
      obtain ⟨d, hd, hdnoted⟩ := hwaits pre hprefix
      exact not_finds_of_noted hd hdnoted m file hfinds

/-- Moves after which a consumer has found the switch file and has not said so. -/
def foundMoves : List Move :=
  .begin 0 (.startDump ⟨"app.log"⟩ 33554432 1000 10) :: List.replicate 7 (.act (.caller 0)) ++
    .begin 0 .start :: List.replicate 17 (.act (.caller 0)) ++
    List.replicate 2 (.act (.consumer 0))

/-- A file that is named when the consumer has said what it found: the switch is off when
the call returns, and comes on when the file has been looked for. -/
theorem switch_follows_other_file :
    let world := World.calm ⟨[(["debug.sf"], .file [] 0), (["other.sf"], .file [] 0)], []⟩ fun _ => 0
    let before := foundMoves ++ [.act (.consumer 0)] ++
      [.begin 0 (.setSwitchFile (some ⟨"other.sf"⟩))] ++ []
    let named := before ++ [.act (.caller 0)]
    let call := [] ++ [.act (.caller 0)]
    let after := List.replicate 3 (.act (.consumer 0)) ++ .act (.timer 0) ::
      List.replicate 11 (.act (.consumer 0))
    (run world before).pipeline.switchOn = true ∧
      (run world (named ++ call)).pipeline.switchOn = false ∧
      (run world (named ++ (call ++ after))).pipeline.switchOn = true ∧
      FoundSince world named (call ++ after) (some ⟨"other.sf"⟩) := by
  intro world before named call after
  have hidle : ((run world (foundMoves ++ [.act (.consumer 0)])).caller 0).tasks = [] :=
    List.isEmpty_iff.1 (by decide +kernel)
  have hnaming : Naming world 0 (some ⟨"other.sf"⟩) before [] := by
    refine Naming.of_call hidle List.not_mem_nil List.not_mem_nil fun pre m hpre => ?_
    simp at hpre
  have hstale : ¬Stale world before [] := by
    have hsaid : ∀ c ∈ (run world before).pipeline.consumers, c.noted ≠ some true := by
      decide +kernel
    rintro ⟨k, c, hc, hnoted, -⟩
    exact hsaid c (List.mem_of_getElem? hc) hnoted
  have hunnamed : Unnamed world (named ++ call) after := by
    rintro pre m hpre ⟨j, q, rest, rfl, -⟩
    have hmem : Move.act (.caller j) ∈ after :=
      hpre.subset (List.mem_append_right _ List.mem_cons_self)
    simp [after] at hmem
  have hon : (run world (named ++ (call ++ after))).pipeline.switchOn = true := by decide +kernel
  exact ⟨by decide +kernel, by decide +kernel, hon,
    (switch_follows_file hnaming).1 hstale after hunnamed hon⟩

/-- No switch file is named when the consumer has found one and has not said so: the
switch is off when the call returns, and on after the consumer's next step. -/
theorem switch_on_without_file :
    let world := World.calm ⟨[(["debug.sf"], .file [] 0)], []⟩ fun _ => 0
    let returned := foundMoves ++ .begin 0 (.setSwitchFile none) ::
      List.replicate 2 (.act (.caller 0))
    ((run world returned).caller 0).tasks = [] ∧
      (run world returned).pipeline.switchFile = none ∧
      (run world returned).pipeline.switchOn = false ∧
      (run world (returned ++ [.act (.consumer 0)])).pipeline.switchFile = none ∧
      (run world (returned ++ [.act (.consumer 0)])).pipeline.switchOn = true := by
  intro world returned
  refine ⟨List.isEmpty_iff.1 (by decide +kernel), ?_, ?_, ?_, ?_⟩ <;> decide +kernel

end System

end LogPipeline
