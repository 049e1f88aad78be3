import LogPipeline.Proofs.DebugSwitch
import LogPipeline.Proofs.Session.Tasks

/-!
# A pipeline with one caller

What holds of the pipeline of a session at each point of the program (`Serving`): it has
no other caller, its settings are those of the configuration or are being given, and its
consumers do what the configuration says. `Serving.next` says that a step of anybody
keeps this, and what it enters into the histories of the run (`Booked`).
-/

namespace LogPipeline.Intake

/-- A verdict of the level filter under a configuration: what has the level passes, and
nothing else but debug entries that the switch lets through while entries are dumped. -/
structure Judges (c : Config) (v : Request × Bool) : Prop where
  pass : c.level ≤ v.1.level → v.2 = true
  reason : v.2 = true → c.level ≤ v.1.level ∨
    v.1.level = .debug ∧ c.isDump = true ∧ c.switchFile.isSome

/-- What is entered into the histories of a run under a configuration, while some
requests on their way become others. -/
structure Booked (c : Config) (owed owed' : List Request) (verdicts : List (Request × Bool))
    (l : Ledger) (left : List (Entry × Departure)) (dumps : List DumpCall) : Prop where
  settles : c.Settles owed verdicts l owed'
  judges : ∀ v ∈ verdicts, Judges c v
  disposes : ∀ x ∈ left, c.Disposes x.2
  directs : ∀ d ∈ dumps, c.isDump = true ∧ c.Directs d.writer

variable {c : Config} {stage : Stage} {s : System} {owed : List Request}

theorem booked_nothing (c : Config) (owed : List Request) : Booked c owed owed [] .empty [] [] :=
  ⟨.of_silent rfl rfl rfl, nofun, nofun, nofun⟩

theorem Booked.trans {owed' owed'' : List Request} {vs vs' : List (Request × Bool)}
    {l l' : Ledger} {left left' : List (Entry × Departure)} {ds ds' : List DumpCall}
    (h : Booked c owed owed' vs l left ds) (h' : Booked c owed' owed'' vs' l' left' ds') :
    Booked c owed owed'' (vs ++ vs') (l ++ l') (left ++ left') (ds ++ ds') where
  settles := h.settles.trans h'.settles
  judges := List.forall_mem_append.2 ⟨h.judges, h'.judges⟩
  disposes := List.forall_mem_append.2 ⟨h.disposes, h'.disposes⟩
  directs := List.forall_mem_append.2 ⟨h.directs, h'.directs⟩

/-- A pipeline whose only caller is the program, at a point of it and with some requests
on their way. -/
structure Serving (c : Config) (stage : Stage) (s : System) (owed : List Request) : Prop where
  sole : ∀ i, i ≠ 0 → (s.caller i).tasks = []
  engaged : Engaged c stage (s.caller 0).tasks owed
  /-- The settings, with those that are yet to be given. -/
  settings : (s.caller 0).tasks.foldl Task.set s.pipeline.settings = c.settings
  staffed : stage.Staffed s.pipeline (s.caller 0).tasks
  suits : ∀ k ∈ s.pipeline.consumers, c.Suits k.stage ∧ k.panicked = false
  switch : s.pipeline.switchOn = true → c.isDump = true ∧ c.switchFile.isSome
  lines : ∀ x ∈ s.pipeline.printed, x.isLine = true

namespace Serving

/-- After the first call, the settings are those of the configuration. -/
theorem settings_eq (h : Serving c stage s owed) (hne : stage ≠ .configuring) :
    s.pipeline.settings = c.settings := by
  rw [← h.settings, Task.foldl_set_eq fun t ht => (h.engaged.does t ht).ne_store hne]

/-- While there is a consumer, the settings are those of the configuration. -/
theorem settings_of_consumer (h : Serving c stage s owed) {j : Nat} {k : Consumer}
    (hk : s.pipeline.consumers[j]? = some k) : s.pipeline.settings = c.settings := by
  refine h.settings_eq ?_
  rintro rfl
  rw [h.staffed.2] at hk
  cases hk

/-- Requests are judged as the configuration says. -/
theorem judges_of_mem (h : Serving c stage s owed) {t : Task} {rest : List Task}
    (ht : (s.caller 0).tasks = t :: rest) : ∀ v ∈ t.verdict s.pipeline, Judges c v := by
  have hdoes := h.engaged.does t (ht ▸ List.mem_cons_self)
  by_cases hlogging : stage = .logging
  · subst hlogging
    have hlevel : s.pipeline.level = c.level :=
      congrArg Settings.level (h.settings_eq (by simp))
    cases t with
    | checkSwitch r =>
      cases hon : s.pipeline.switchOn with
      | true =>
        simp only [Task.verdict, hon, if_true, List.mem_singleton, forall_eq]
        exact ⟨fun _ => rfl, fun _ => .inr ⟨hdoes, h.switch hon⟩⟩
      | false => simp [Task.verdict, hon]
    | checkLevel r =>
      simp only [Task.verdict, List.mem_singleton, forall_eq, hlevel]
      exact ⟨fun hle => by simpa using hle, fun hle => .inl (by simpa using hle)⟩
    | _ => simp [Task.verdict]
  · rw [(hdoes.silent hlogging s.pipeline).1]
    exact fun v hv => (List.not_mem_nil hv).elim

/-- The program goes on. -/
theorem afterTask (h : Serving c stage s owed) {t : Task} {rest : List Task}
    (ht : (s.caller 0).tasks = t :: rest) :
    ∃ owed', Serving c stage (s.afterTask 0 t rest) owed' ∧
      c.Settles owed (t.verdict s.pipeline) (t.ledger s.pipeline) owed' ∧
      (t.verdict s.pipeline).map Prod.fst ++
          (((s.afterTask 0 t rest).caller 0).tasks).flatMap Task.judges =
        (s.caller 0).tasks.flatMap Task.judges := by
  have hengaged := h.engaged
  have hstaffed := h.staffed
  have hsettings := h.settings
  rw [ht] at hengaged hstaffed hsettings
  have hdoes := hengaged.does t List.mem_cons_self
  obtain ⟨owed', hsettles, hengaged', hjudges⟩ :=
    hengaged.step (fun hs => h.settings_eq (by simp [hs])) 0
  refine ⟨owed', ⟨fun i hi => ?_, ?_, ?_, ?_, ?_, ?_, ?_⟩, hsettles, ?_⟩
  · rw [System.afterTask, System.setCaller_caller_of_ne _ _ hi]
    exact h.sole i hi
  · simpa [System.afterTask] using hengaged'
  · -- the next tasks store nothing
    have hstores : ∀ t' ∈ (t.step 0 s.pipeline).next, ∀ setting, t' ≠ .store setting :=
      fun _ ht' => (Task.of_mem_next ht').1
    have hnext := Task.foldl_set_eq hstores
    simpa [System.afterTask, Task.settings_step, hnext] using hsettings
  · simpa [System.afterTask] using hstaffed.step hdoes 0
  · simp only [System.afterTask, System.setCaller_pipeline]
    rcases Task.step_consumers 0 s.pipeline t with he | ⟨-, he⟩ <;> rw [he]
    · exact h.suits
    · refine List.forall_mem_append.2 ⟨h.suits, ?_⟩
      exact List.forall_mem_singleton.2 ⟨trivial, rfl⟩
  · simp only [System.afterTask, System.setCaller_pipeline]
    rcases (Task.step_settings 0 s.pipeline t).1 with he | he <;> rw [he]
    · exact h.switch
    · exact fun hon => Bool.noConfusion hon
  · simpa [System.afterTask, Task.step_printed] using h.lines
  · simpa [System.afterTask, ht] using hjudges

theorem afterConsumer (h : Serving c stage s owed) {j : Nat} {k : Consumer}
    (hk : s.pipeline.consumers[j]? = some k) :
    Serving c stage (s.afterConsumer j k) owed := by
  have hset := h.settings_of_consumer hk
  obtain ⟨hsuits, hcalm⟩ := h.suits k (List.mem_of_getElem? hk)
  refine ⟨h.sole, h.engaged, ?_, ?_, ?_, ?_, ?_⟩
  · simpa [System.afterConsumer, Pipeline.settings] using
      (congrArg ((s.caller 0).tasks.foldl Task.set) (k.settings_step s.pipeline)).trans h.settings
  · refine h.staffed.congr (k.step_worker s.pipeline) fun hnil => ?_
    rw [hnil] at hk
    cases hk
  · intro k' hk'
    obtain ⟨j', hj'⟩ := List.getElem?_of_mem hk'
    simp only [System.afterConsumer, Consumer.step_consumers] at hj'
    rcases System.getElem?_set_cases hk hj' with ⟨-, rfl⟩ | ⟨-, hold⟩
    · exact Consumer.suits_step hset hsuits hcalm
    · exact h.suits k' (List.mem_of_getElem? hold)
  · exact Consumer.switchOn_step hsuits h.switch
  · exact Consumer.isLine_of_step hsuits h.lines

theorem afterTimer (h : Serving c stage s owed) {j : Nat} {k : Consumer}
    (hk : s.pipeline.consumers[j]? = some k) :
    Serving c stage (s.afterTimer j k) owed := by
  obtain ⟨hsuits, hcalm⟩ := h.suits k (List.mem_of_getElem? hk)
  refine ⟨h.sole, h.engaged, h.settings, h.staffed.congr rfl fun hnil => ?_, ?_, h.switch, h.lines⟩
  · rw [hnil] at hk
    cases hk
  · intro k' hk'
    obtain ⟨j', hj'⟩ := List.getElem?_of_mem hk'
    simp only [System.afterTimer] at hj'
    rcases System.getElem?_set_cases hk hj' with ⟨-, rfl⟩ | ⟨-, hold⟩
    · exact Consumer.suits_expire hsuits hcalm
    · exact h.suits k' (List.mem_of_getElem? hold)

theorem booked_consumer (h : Serving c stage s owed) {j : Nat} {k : Consumer}
    (hk : s.pipeline.consumers[j]? = some k) :
    Booked c owed owed [] (k.ledger s.pipeline) (k.departures s.pipeline)
      (k.dumped s.pipeline) where
  settles := .of_silent rfl (k.ledger_counts s.pipeline).2.1 (k.ledger_counts s.pipeline).2.2
  judges := nofun
  disposes _ hx := Consumer.disposes_of_mem (h.suits k (List.mem_of_getElem? hk)).1 hx
  directs := Consumer.directs_of_dumped (h.settings_of_consumer hk)
    (h.suits k (List.mem_of_getElem? hk)).1

/-- A step of anybody, or a change from outside, keeps a pipeline with one caller. -/
theorem next (h : Serving c stage s owed) {m : Move} (hm : ∀ i call, m ≠ .begin i call) :
    ∃ owed', Serving c stage (s.next m) owed' ∧
      Booked c owed owed' (s.judgedOf m) (s.ledgerOf m) (s.departedOf m) (s.dumpedOf m) ∧
      (s.judgedOf m).map Prod.fst ++ ((s.next m).caller 0).tasks.flatMap Task.judges =
        (s.caller 0).tasks.flatMap Task.judges ∧
      (stage ≠ .logging → (s.ledgerOf m).accepted = []) := by
  match m with
  | .begin i call => exact (hm i call rfl).elim
  | .act (.caller i) =>
    cases ht : (s.caller i).tasks with
    | nil =>
      refine ⟨owed, ?_, ?_, ?_, ?_⟩
      all_goals simp only [System.next, System.step_caller_of_nil ht, System.judgedOf,
        System.ledgerOf, System.departedOf, System.dumpedOf, ht]
      · exact h
      · exact booked_nothing c owed
      · rfl
      · exact fun _ => rfl
    | cons t rest =>
      obtain rfl : i = 0 := Decidable.byContradiction fun hi => by
        rw [h.sole i hi] at ht
        cases ht
      obtain ⟨owed', hserving, hsettles, hjudges⟩ := h.afterTask ht
      refine ⟨owed', ?_, ?_, ?_, ?_⟩
      all_goals simp only [System.next, System.step_caller_of_cons ht, System.judgedOf,
        System.ledgerOf, System.departedOf, System.dumpedOf, ht]
      · exact hserving
      · exact ⟨hsettles, h.judges_of_mem ht, fun _ hx => (List.not_mem_nil hx).elim,
          fun _ hd => (List.not_mem_nil hd).elim⟩
      · rw [← ht]
        exact hjudges
      · exact fun hne => ((h.engaged.does t (ht ▸ List.mem_cons_self)).silent hne _).2.1
  | .act (.consumer j) =>
    cases hk : s.pipeline.consumers[j]? with
    | none =>
      have hsame : s.step (.consumer j) = s := by
        simp [System.step, Pipeline.stepConsumer, hk]
      refine ⟨owed, ?_, ?_, ?_, ?_⟩
      all_goals simp only [System.next, hsame, System.judgedOf,
        System.ledgerOf, System.departedOf, System.dumpedOf, hk]
      · exact h
      · exact booked_nothing c owed
      · rfl
      · exact fun _ => rfl
    | some k =>
      refine ⟨owed, ?_, ?_, ?_, ?_⟩
      all_goals simp only [System.next, System.step_consumer_of_some hk, System.judgedOf,
        System.ledgerOf, System.departedOf, System.dumpedOf, hk]
      · exact h.afterConsumer hk
      · exact h.booked_consumer hk
      · rfl
      · exact fun _ => (k.ledger_counts s.pipeline).2.1
  | .act (.timer j) =>
    refine ⟨owed, ?_, booked_nothing c owed, rfl, fun _ => rfl⟩
    cases hk : s.pipeline.consumers[j]? with
    | none => simpa [System.next, System.step, Pipeline.expireConsumer, hk] using h
    | some k =>
      rw [System.next, System.step_timer_of_some hk]
      exact h.afterTimer hk
  | .outside w =>
    exact ⟨owed, ⟨h.sole, h.engaged, h.settings, h.staffed.congr rfl id, h.suits, h.switch, h.lines⟩,
      booked_nothing c owed, rfl, fun _ => rfl⟩

/-- The program begins a call that gives no settings. -/
theorem begin (h : Serving c stage s owed) (hidle : (s.caller 0).tasks = []) {stage' : Stage}
    {call : Call} (hengaged : Engaged c stage' call.tasks [])
    (hstaffed : stage'.Staffed s.pipeline call.tasks) (hne : stage' ≠ .configuring) :
    Serving c stage' (s.begin 0 call) [] := by
  have hsettings := h.settings
  rw [hidle] at hsettings
  rw [System.begin_of_nil hidle]
  refine ⟨fun i hi => ?_, hengaged, ?_, hstaffed, h.suits, h.switch, h.lines⟩
  · rw [System.setCaller_caller_of_ne _ _ hi]
    exact h.sole i hi
  · rw [System.setCaller_caller_self]
    exact (Task.foldl_set_eq (fun t ht => (hengaged.does t ht).ne_store hne) _).trans hsettings

/-- The program goes on when no call of it is under way. -/
theorem pause (h : Serving c stage s owed) (hidle : (s.caller 0).tasks = []) {stage' : Stage}
    (hstaffed : stage'.Staffed s.pipeline []) : Serving c stage' s [] := by
  refine ⟨h.sole, ?_, h.settings, ?_, h.suits, h.switch, h.lines⟩ <;> rw [hidle]
  · exact engaged_nil c stage'
  · exact hstaffed

end Serving

end LogPipeline.Intake
