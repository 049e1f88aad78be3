import LogPipeline.Proofs.Ledger.History

/-!
# The settings of a configuration

The cells that a configuration sets are set by tasks of callers and by nothing else
(`Task.settings_step`, `Consumer.settings_step`). A consumer that takes its steps under
the settings of a configuration does what the configuration says
(`Consumer.suits_step`): it prints on the console, or it dumps to the files that are
named (`Consumer.disposes_of_mem`, `Consumer.directs_of_dumped`).
-/

namespace LogPipeline

/-- The cells of a pipeline that calls set, and nobody else. -/
structure Settings where
  level : Level
  showCaller : Bool
  emitMode : EmitMode
  switchFile : Option Path
  path : Path
  cap : UInt64
  threshold : UInt64
  interval : UInt64
  dumping : Bool
  fallback : Path
  retention : Option UInt64
  sink : Sink

def Pipeline.settings (p : Pipeline) : Settings where
  level := p.level
  showCaller := p.showCaller
  emitMode := p.emitMode
  switchFile := p.switchFile
  path := p.writer.path
  cap := p.writer.cap
  threshold := p.threshold
  interval := p.interval
  dumping := p.dumping
  fallback := p.writer.fallback
  retention := p.writer.retention
  sink := p.sink

/-- The settings with one of them given. -/
def Setting.set (x : Settings) : Setting → Settings
  | .level l => { x with level := l }
  | .showCaller b => { x with showCaller := b }
  | .emitMode m => { x with emitMode := m }
  | .switchFile file => { x with switchFile := file }
  | .switchOff => x
  | .target path cap => { x with path, cap }
  | .threshold n => { x with threshold := n }
  | .interval ms => { x with interval := ms }
  | .dumping b => { x with dumping := b }
  | .fallback path => { x with fallback := path }
  | .retention days => { x with retention := days }
  | .sink s => { x with sink := s }

theorem Setting.settings_apply (s : Setting) (p : Pipeline) :
    (s.apply p).settings = s.set p.settings := by
  cases s <;> rfl

/-- The settings after a task. -/
def Task.set (x : Settings) : Task → Settings
  | .store s => s.set x
  | _ => x

/-- Tasks that store nothing leave the settings. -/
theorem Task.foldl_set_eq {ts : List Task} (h : ∀ t ∈ ts, ∀ s, t ≠ .store s) (x : Settings) :
    ts.foldl Task.set x = x := by
  induction ts with
  | nil => rfl
  | cons t ts ih =>
    have ht : t.set x = x := by
      unfold Task.set
      split
      · exact (h _ List.mem_cons_self _ rfl).elim
      · rfl
    rw [List.foldl_cons, ht, ih fun t' ht' => h t' (List.mem_cons_of_mem t ht')]

/-- A caller changes the settings by the tasks that store them. -/
theorem Task.settings_step (i : Nat) (p : Pipeline) (t : Task) :
    (t.step i p).pipeline.settings = t.set p.settings := by
  apply pipeline_cases (P := fun p' => p'.settings = t.set p.settings)
  case looks =>
    intro hlooks
    cases t <;> first | rfl | exact hlooks.elim
  case store =>
    rintro s rfl
    exact s.settings_apply p
  case onEvent =>
    rintro name c rfl
    cases name <;> rfl
  all_goals
    intros
    subst t
    rfl

/-- A consumer leaves the settings. -/
theorem Consumer.settings_step (p : Pipeline) (c : Consumer) :
    (c.step p).1.settings = p.settings := by
  cases hs : c.stage with
  | dump =>
    obtain ⟨n, hn⟩ := p.writer.writer_dump c.draining p.world
    simp only [step, hs, dumpAll, Pipeline.settings, hn]
    rfl
  | print sink rest =>
    cases rest with
    | nil => simp only [step, hs]
    | cons e rest =>
      simp only [step, hs]
      split <;> rfl
  | flush sink =>
    simp only [step, hs]
    split <;> rfl
  | _ => simp only [step, hs, Pipeline.settings]

/-- Only a caller that stores a setting changes the settings. -/
theorem System.settings_next (s : System) (m : Move) :
    (s.next m).pipeline.settings = s.pipeline.settings ∨
      ∃ i x rest, m = .act (.caller i) ∧ (s.caller i).tasks = .store x :: rest ∧
        (s.next m).pipeline.settings = x.set s.pipeline.settings := by
  match m with
  | .begin i call =>
    left
    simp only [next, System.begin]
    split <;> rfl
  | .act (.caller i) =>
    cases ht : (s.caller i).tasks with
    | nil =>
      rw [next, step_caller_of_nil ht]
      exact .inl rfl
    | cons t rest =>
      rw [next, step_caller_of_cons ht, afterTask, setCaller_pipeline, Task.settings_step]
      cases t with
      | store x => exact .inr ⟨i, x, rest, rfl, ht, rfl⟩
      | _ => exact .inl rfl
  | .act (.consumer j) =>
    left
    cases hk : s.pipeline.consumers[j]? with
    | none => simp only [next, step, Pipeline.stepConsumer, hk]
    | some k =>
      rw [next, step_consumer_of_some hk]
      exact k.settings_step s.pipeline
  | .act (.timer j) =>
    left
    cases hk : s.pipeline.consumers[j]? with
    | none => simp only [next, step, Pipeline.expireConsumer, hk]
    | some k =>
      rw [next, step_timer_of_some hk]
      rfl
  | .outside w => exact .inl rfl

namespace Config

/-- The settings of a new pipeline to which a configuration has been applied. -/
def settings (c : Config) : Settings where
  level := c.level
  showCaller := c.showCaller
  emitMode := c.emitMode
  switchFile := c.switchFile
  path := if c.isDump then c.dumpPath else ⟨""⟩
  cap := if c.isDump then c.dumpSize else defaultDumpSize
  threshold := if c.isDump then c.dumpThreshold else Default.dumpThreshold
  interval := if c.isDump then c.dumpInterval else Default.dumpInterval
  dumping := c.isDump
  fallback := c.fallback
  retention := c.retention
  sink := .console

/-- The tasks of an application give a new pipeline the settings. -/
theorem foldl_set_applyTasks (c : Config) (w : World) :
    (Call.apply c).tasks.foldl Task.set (Pipeline.new w).settings = c.settings := by
  cases hdump : c.isDump <;>
    simp [Call.tasks, Call.applyTasks, Call.switchFileTasks, Call.startDumpTasks, hdump, Task.set,
      Setting.set, settings, Pipeline.settings, Pipeline.new, DumpWriter.new]

/-! ## Consumers under the settings -/

/-- How entries leave under the settings of a configuration. -/
def Disposes (c : Config) : Departure → Prop
  | .printed sink => c.isDump = false ∧ sink = .console
  | .written _ | .spilled _ | .lost => c.isDump = true
  | .discarded => False

/-- A writer to the files that a configuration names. -/
structure Directs (c : Config) (d : DumpWriter) : Prop where
  path : d.path = c.dumpPath
  cap : d.cap = c.dumpSize
  fallback : d.fallback = c.fallback
  retention : d.retention = c.retention

/-- The points that a consumer comes to under the settings of a configuration. -/
def Suits (c : Config) : ConsumerStage → Prop
  | .seekSwitch | .dump => c.isDump = true
  | .noteSwitch found => c.isDump = true ∧ (found = true → c.switchFile.isSome)
  | .pickSink => c.isDump = false
  | .print sink _ | .flush sink => c.isDump = false ∧ sink = .console
  | _ => True

end Config

namespace Consumer

variable {c : Config} {p : Pipeline} {k : Consumer}

/-- A consumer stays at the points that suit the settings, and no sink panics. -/
theorem suits_step (hset : p.settings = c.settings) (h : c.Suits k.stage)
    (hcalm : k.panicked = false) :
    c.Suits (k.step p).2.stage ∧ (k.step p).2.panicked = false := by
  have hdumping : p.dumping = c.isDump := congrArg Settings.dumping hset
  have hsink : p.sink = .console := congrArg Settings.sink hset
  have hfile : p.switchFile = c.switchFile := congrArg Settings.switchFile hset
  cases hs : k.stage with
  | top =>
    simp only [step, hs, hdumping]
    cases hd : c.isDump <;> exact ⟨by simp [Config.Suits, hd], hcalm⟩
  | seekSwitch =>
    rw [hs] at h
    refine ⟨?_, by simpa [step, hs] using hcalm⟩
    simp only [step, hs, Config.Suits, switchFound, hfile]
    refine ⟨h, fun hfound => ?_⟩
    split at hfound
    · next hsome => rw [hsome]; rfl
    · cases hfound
  | choose =>
    simp only [step, hs, hdumping]
    refine ⟨?_, hcalm⟩
    split
    · trivial
    · split
      · next hd => exact hd
      · next hd => exact Bool.eq_false_iff.2 hd
  | pickSink =>
    rw [hs] at h
    simp only [step, hs]
    exact ⟨⟨h, hsink⟩, hcalm⟩
  | print sink rest =>
    rw [hs] at h
    obtain ⟨hd, rfl⟩ := h
    cases rest with
    | nil => simpa only [step, hs] using And.intro ⟨hd, rfl⟩ hcalm
    | cons e rest =>
      have hnever : ¬Sink.console.panics (p.records Sink.console.channel).length = true :=
        Bool.false_ne_true
      simp only [step, hs, if_neg hnever]
      exact ⟨⟨hd, rfl⟩, hcalm⟩
  | decide =>
    simp only [step, hs, nextRound]
    refine ⟨?_, hcalm⟩
    split
    · trivial
    · split <;> trivial
  | awaitDump call | checkStop call | takeQueue call | idle call | finish call =>
    simp only [step, hs]
    split <;> exact ⟨trivial, hcalm⟩
  | _ => exact ⟨by simp [step, hs, Config.Suits], by simpa [step, hs] using hcalm⟩

/-- A consumer dumps to the files that are named. -/
theorem directs_of_dumped (hset : p.settings = c.settings) (h : c.Suits k.stage) :
    ∀ d ∈ k.dumped p, c.isDump = true ∧ c.Directs d.writer := by
  intro d hd
  unfold dumped at hd
  split at hd
  · next hs =>
    rw [hs] at h
    have hdump : c.isDump = true := h
    obtain rfl := List.mem_singleton.1 hd
    refine ⟨hdump, ?_, ?_, congrArg Settings.fallback hset, congrArg Settings.retention hset⟩
    · refine (congrArg Settings.path hset).trans ?_
      simp [Config.settings, hdump]
    · refine (congrArg Settings.cap hset).trans ?_
      simp [Config.settings, hdump]
  · cases hd

/-- Entries leave as the settings say. -/
theorem disposes_of_mem (h : c.Suits k.stage) {x : Entry × Departure}
    (hx : x ∈ k.departures p) : c.Disposes x.2 := by
  cases hs : k.stage with
  | dump =>
    rw [hs] at h
    simp only [departures, hs] at hx
    rcases DumpReport.of_mem_departures (List.of_mem_zip hx).2 with hd | hd | hd <;> rw [hd] <;>
      exact h
  | print sink rest =>
    rw [hs] at h
    obtain ⟨hd, rfl⟩ := h
    cases rest with
    | nil => simp [departures, hs] at hx
    | cons e rest =>
      simp only [departures, hs, Sink.console] at hx
      obtain rfl : x = (e, .printed .console) := by simpa [Sink.console] using hx
      exact ⟨hd, rfl⟩
  | _ => simp [departures, hs] at hx

/-- A consumer prints lines and records no flush. -/
theorem isLine_of_step (h : c.Suits k.stage) (hlines : ∀ x ∈ p.printed, x.isLine = true) :
    ∀ x ∈ (k.step p).1.printed, x.isLine = true := by
  cases hs : k.stage with
  | print sink rest =>
    cases rest with
    | nil => simpa only [step, hs] using hlines
    | cons e rest =>
      simp only [step, hs]
      split
      · exact hlines
      · exact List.forall_mem_cons.2 ⟨rfl, hlines⟩
  | flush sink =>
    rw [hs] at h
    obtain ⟨-, rfl⟩ := h
    simpa [step, hs, Sink.console] using hlines
  | dump =>
    simp only [step, hs]
    exact hlines
  | _ => simpa only [step, hs] using hlines

/-- Only a look at the debug switch file turns the switch on. -/
theorem switchOn_step (h : c.Suits k.stage)
    (hswitch : p.switchOn = true → c.isDump = true ∧ c.switchFile.isSome) :
    (k.step p).1.switchOn = true → c.isDump = true ∧ c.switchFile.isSome := by
  cases hs : k.stage with
  | noteSwitch found =>
    rw [hs] at h
    simp only [step, hs]
    exact fun hfound => ⟨h.1, h.2 hfound⟩
  | print sink rest =>
    cases rest with
    | nil => simpa only [step, hs] using hswitch
    | cons e rest =>
      simp only [step, hs]
      split <;> exact hswitch
  | flush sink =>
    simp only [step, hs]
    split <;> exact hswitch
  | dump =>
    simp only [step, hs]
    exact hswitch
  | _ => simpa only [step, hs] using hswitch

theorem suits_expire (h : c.Suits k.stage) (hcalm : k.panicked = false) :
    c.Suits (k.expire p).stage ∧ (k.expire p).panicked = false := by
  unfold expire
  split
  · exact ⟨trivial, hcalm⟩
  · exact ⟨trivial, hcalm⟩
  · exact ⟨h, hcalm⟩

end Consumer

end LogPipeline
