import LogPipeline.Proofs.DebugSwitch
import LogPipeline.Proofs.Session.Settings

/-!
# Applying a configuration

A caller that applies a configuration overwrites the settings that it gives and leaves
the others. What its tasks will have stored when all of them are done is the same before
and after each of its steps (`Applying.settings_of_prefix`, `Pipeline.settings_runCaller`),
so that the settings when it returns are `Config.onto` those before, whatever the
consumers and the other callers do meanwhile.

Dumping is turned on and never off. `application_overwrites` therefore compares all other
settings with those of a new logger with the configuration, and dumping and where it
writes to only if the configuration says that entries are dumped;
`dumping_outlives_application` shows that it may stay on otherwise.
-/

namespace LogPipeline

namespace Config

/-- The settings after a configuration has been applied. -/
def onto (c : Config) (x : Settings) : Settings :=
  let given : Settings := { x with
    level := c.level
    showCaller := c.showCaller
    emitMode := c.emitMode
    switchFile := c.switchFile
    fallback := c.fallback
    retention := c.retention }
  if c.isDump then
    { given with
      dumping := true
      path := c.dumpPath
      cap := c.dumpSize
      threshold := c.dumpThreshold
      interval := c.dumpInterval }
  else given

/-- Two settings agree on what a configuration gives in any case. -/
structure Agrees (x y : Settings) : Prop where
  level : x.level = y.level
  showCaller : x.showCaller = y.showCaller
  emitMode : x.emitMode = y.emitMode
  switchFile : x.switchFile = y.switchFile
  fallback : x.fallback = y.fallback
  retention : x.retention = y.retention

/-- Two settings agree on whether and where to entries are dumped. -/
structure DumpsAlike (x y : Settings) : Prop where
  dumping : x.dumping = y.dumping
  path : x.path = y.path
  cap : x.cap = y.cap
  threshold : x.threshold = y.threshold
  interval : x.interval = y.interval

theorem foldl_set_apply (c : Config) (x : Settings) :
    (Call.apply c).tasks.foldl Task.set x = c.onto x := by
  cases hdump : c.isDump <;>
    simp [Call.tasks, Call.applyTasks, Call.switchFileTasks, Call.startDumpTasks, hdump, Task.set,
      Setting.set, onto]

theorem agrees_onto (c : Config) (x y : Settings) : Agrees (c.onto x) (c.onto y) := by
  unfold onto
  split <;> exact ⟨rfl, rfl, rfl, rfl, rfl, rfl⟩

theorem dumpsAlike_onto {c : Config} (h : c.isDump = true) (x y : Settings) :
    DumpsAlike (c.onto x) (c.onto y) := by
  simp only [onto, h, if_true]
  exact ⟨rfl, rfl, rfl, rfl, rfl⟩

theorem dumpsAlike_onto_self {c : Config} (h : c.isDump = false) (x : Settings) :
    DumpsAlike (c.onto x) x := by
  simp only [onto, h, Bool.false_eq_true, if_false]
  exact ⟨rfl, rfl, rfl, rfl, rfl⟩

theorem dumping_onto (c : Config) (x : Settings) :
    (c.onto x).dumping = (c.isDump || x.dumping) := by
  cases h : c.isDump <;> simp [onto, h]

end Config

/-- What the tasks of a caller will have stored is the same after a step of the first. -/
theorem Task.foldl_set_step (i : Nat) (p : Pipeline) (t : Task) (rest : List Task) :
    ((t.step i p).next ++ rest).foldl Task.set (t.step i p).pipeline.settings =
      (t :: rest).foldl Task.set p.settings := by
  rw [List.foldl_append, foldl_set_eq fun t' ht' => (of_mem_next ht').1, settings_step,
    List.foldl_cons]

/-! ## A new logger with a configuration -/

namespace Pipeline

theorem settings_stepConsumer (p : Pipeline) (j : Nat) :
    (p.stepConsumer j).settings = p.settings := by
  unfold stepConsumer
  split
  · next k _ => exact k.settings_step p
  · rfl

theorem settings_settle (p : Pipeline) : p.settle.settings = p.settings := by
  have hfuel : ∀ fuel (p : Pipeline), (p.settleFor fuel).settings = p.settings := by
    intro fuel
    induction fuel with
    | zero => exact fun _ => rfl
    | succ fuel ih =>
      intro p
      unfold settleFor
      split
      · rw [ih, settings_stepConsumer]
      · rfl
  exact hfuel _ p

/-- A caller that goes on alone stores what its tasks say. -/
theorem settings_runCaller (stop : Caller → Bool) (i fuel : Nat) (p : Pipeline) (c : Caller) :
    (p.runCaller stop i c fuel).2.tasks.foldl Task.set (p.runCaller stop i c fuel).1.settings =
      c.tasks.foldl Task.set p.settings := by
  induction fuel generalizing p c with
  | zero => rfl
  | succ fuel ih =>
    unfold runCaller
    split
    · rfl
    · split
      · dsimp only
        split
        · rw [settings_settle]
        · rw [ih, settings_settle]
      · rw [ih]
        cases ht : c.tasks with
        | nil => simp [Caller.step, ht]
        | cons t rest =>
          simp only [Caller.step, ht]
          exact t.foldl_set_step i p rest

/-- A caller with some tasks has returned when it has gone on alone for so many steps. -/
def Returns (p : Pipeline) (ts : List Task) (steps : Nat) : Prop :=
  ∀ i reply fuel, steps ≤ fuel → (p.runCaller (fun _ => false) i ⟨ts, reply⟩ fuel).2.tasks = []

theorem returns_nil (p : Pipeline) : p.Returns [] 0 := by
  intro i reply fuel _
  cases fuel <;> rfl

/-- A task that is not blocked takes a step. -/
theorem returns_cons {p : Pipeline} {t : Task} {rest : List Task} {steps : Nat}
    (hready : t.isBlocked p = false)
    (h : ∀ i, (t.step i p).pipeline.Returns ((t.step i p).next ++ rest) steps) :
    p.Returns (t :: rest) (steps + 1) := by
  intro i reply fuel hfuel
  obtain ⟨fuel, rfl⟩ := Nat.exists_eq_add_of_lt (Nat.lt_of_lt_of_le (Nat.succ_pos steps) hfuel)
  rw [Nat.zero_add] at hfuel ⊢
  have hgoes : Caller.isResting p ⟨t :: rest, reply⟩ = false := hready
  simp only [runCaller, List.isEmpty_cons, Bool.or_self, Bool.false_eq_true, if_false, hgoes]
  exact h i i _ fuel (Nat.le_of_succ_le_succ hfuel)

theorem Returns.mono {p : Pipeline} {ts : List Task} {steps steps' : Nat} (h : p.Returns ts steps)
    (hle : steps ≤ steps') : p.Returns ts steps' :=
  fun i reply fuel hfuel => h i reply fuel (hle.trans hfuel)

theorem returns_stores {p : Pipeline} {xs : List Setting} {rest : List Task} {steps : Nat}
    (h : (xs.foldl Setting.apply p).Returns rest steps) :
    p.Returns (xs.map .store ++ rest) (steps + xs.length) := by
  induction xs generalizing p with
  | nil => exact h
  | cons x xs ih => exact returns_cons rfl fun i => ih h

/-- A call on the queue takes a step, and goes on if that has not ended it. -/
theorem returns_onBuffer {p : Pipeline} {call : BufferCall} {stake steps : Nat} {rest : List Task}
    (h : ({ p with buffer := (call.step p.buffer).1 } : Pipeline).Returns
      ((match (call.step p.buffer).2.reply? with
        | some reply => Task.afterBuffer stake reply
        | none => [.onBuffer (call.step p.buffer).2 stake]) ++ rest) steps) :
    p.Returns (.onBuffer call stake :: rest) (steps + 1) := by
  refine returns_cons rfl fun i => ?_
  simp only [Task.step]
  split at h <;> simp only [*]

/-- Room is made in a queue that nobody holds. -/
theorem returns_reserve {p : Pipeline} {more stake steps : Nat} {rest : List Task}
    (hfree : p.buffer.lock = .free)
    (h : ∀ buffer, ({ p with buffer } : Pipeline).Returns rest steps) :
    p.Returns (.onBuffer (.reserve more) stake :: rest) (steps + 3) := by
  have hleave : ∀ buffer reply, Task.afterBuffer stake reply = [] →
      ({ p with buffer } : Pipeline).Returns (.onBuffer (.leave reply) stake :: rest) (steps + 1) := by
    intro buffer reply hafter
    refine returns_onBuffer ?_
    simp only [BufferCall.step, BufferCall.reply?, hafter]
    exact h _
  refine returns_onBuffer ?_
  simp only [BufferCall.reserve, BufferCall.step, hfree, Sync.SpinLock.attempt,
    RecordBuffer.perform]
  by_cases hroom : p.buffer.incoming.length + more ≤ p.buffer.room
  · rw [if_pos hroom]
    exact (hleave _ .reserved rfl).mono (Nat.le_succ _)
  · rw [if_neg hroom]
    by_cases hlimit : p.buffer.incoming.length + more ≤ RecordBuffer.capacityLimit
    · rw [if_pos hlimit]
      exact returns_onBuffer (hleave _ .reserved rfl)
    · rw [if_neg hlimit]
      exact (hleave _ .overflow rfl).mono (Nat.le_succ _)

/-- Nothing that a setting is stored in is part of the queue. -/
theorem buffer_foldl_apply (xs : List Setting) (p : Pipeline) :
    (xs.foldl Setting.apply p).buffer = p.buffer := by
  induction xs generalizing p with
  | nil => rfl
  | cons x xs ih =>
    rw [List.foldl_cons, ih]
    cases x <;> rfl

/-- A configuration is applied in few steps, if nobody holds the queue. -/
theorem returns_apply {p : Pipeline} (hfree : p.buffer.lock = .free) (c : Config) :
    p.Returns (Call.apply c).tasks 14 := by
  let given : List Setting := [.level c.level, .showCaller c.showCaller, .emitMode c.emitMode,
    .switchFile c.switchFile, .switchOff, .fallback c.fallback, .retention c.retention]
  let target : List Setting := [.target c.dumpPath c.dumpSize, .threshold c.dumpThreshold,
    .interval c.dumpInterval]
  have hgiven : (Call.apply c).tasks = given.map .store ++
      if c.isDump then target.map .store ++
        [.onBuffer (.reserve Default.bufferCapacity) 0, .store (.dumping true)] else [] := by
    simp [given, target, Call.tasks, Call.applyTasks, Call.switchFileTasks, Call.startDumpTasks]
  have hdumps : ∀ q : Pipeline, q.buffer = p.buffer → q.Returns (target.map .store ++
      [.onBuffer (.reserve Default.bufferCapacity) 0, .store (.dumping true)]) (4 + target.length) := by
    intro q hq
    refine returns_stores (returns_reserve ?_ fun buffer => ?_)
    · rw [buffer_foldl_apply, hq, hfree]
    · exact returns_cons rfl fun i => returns_nil _
  have hrest : (given.foldl Setting.apply p).Returns (if c.isDump then target.map .store ++
      [.onBuffer (.reserve Default.bufferCapacity) 0, .store (.dumping true)] else []) 7 := by
    cases c.isDump with
    | false => exact (returns_nil _).mono (Nat.zero_le _)
    | true => exact hdumps _ (buffer_foldl_apply given p)
  rw [hgiven]
  exact returns_stores hrest

/-- On a queue that nobody holds, a configuration is applied, and nothing else is set. -/
theorem settings_perform_apply {p : Pipeline} (hfree : p.buffer.lock = .free) (c : Config) :
    (p.perform (.apply c)).2.settings = c.onto p.settings := by
  have hgiven := settings_runCaller (fun _ => false) 0 callLimit p (.begin (.apply c))
  rw [Caller.begin, returns_apply hfree c 0 none callLimit (by decide)] at hgiven
  rw [perform, settings_settle]
  exact hgiven.trans (c.foldl_set_apply _)

/-- A new logger with a configuration has the settings that the configuration gives. -/
theorem settings_ofConfig (c : Config) (w : World) :
    (ofConfig c w).settings = c.onto (new w).settings :=
  settings_perform_apply rfl c

end Pipeline

/-! ## A call among others -/

namespace System

/-- A caller other than the given one stores a setting. -/
def OtherSets (s : System) (i : Nat) (m : Move) : Prop :=
  ∃ j x rest, j ≠ i ∧ m = .act (.caller j) ∧ (s.caller j).tasks = .store x :: rest

/-- A caller begins to apply a configuration and has returned at the end of some moves,
among which no other caller stores a setting. -/
structure Applying (world : World) (i : Nat) (c : Config) (before during : List Move) : Prop where
  idle : ((run world before).caller i).tasks = []
  returned : ((run world (before ++ [.begin i (.apply c)] ++ during)).caller i).tasks = []
  once : ∀ call, .begin i call ∉ during
  alone : ∀ pre m, pre ++ [m] <+: during →
    ¬(run world (before ++ [.begin i (.apply c)] ++ pre)).OtherSets i m

/-- What the tasks of a caller will have stored stays the same, if no other caller stores
a setting. -/
theorem foldl_set_next {s : System} {i : Nat} {m : Move} (hbegin : ∀ call, m ≠ .begin i call)
    (hother : ¬s.OtherSets i m) :
    ((s.next m).caller i).tasks.foldl Task.set (s.next m).pipeline.settings =
      (s.caller i).tasks.foldl Task.set s.pipeline.settings := by
  by_cases hact : m = .act (.caller i)
  · subst hact
    cases ht : (s.caller i).tasks with
    | nil => rw [next, step_caller_of_nil ht, ht]
    | cons t rest =>
      rw [next, step_caller_of_cons ht, afterTask, setCaller_caller_self, setCaller_pipeline]
      exact t.foldl_set_step i s.pipeline rest
  · have hsame : (s.next m).caller i = s.caller i := by
      by_cases hi : (s.caller i).tasks = []
      · exact next_caller_of_idle hi hbegin
      · exact next_caller_of_ne hi hact
    rw [hsame]
    rcases s.settings_next m with hset | ⟨j, x, rest, rfl, ht, -⟩
    · rw [hset]
    · exact (hother ⟨j, x, rest, fun hj => hact (by rw [hj]), rfl, ht⟩).elim

namespace Applying

variable {world : World} {i : Nat} {c : Config} {before during : List Move}

theorem settings_of_prefix (h : Applying world i c before during) {pre : List Move}
    (hpre : pre <+: during) :
    let s := run world (before ++ [.begin i (.apply c)] ++ pre)
    (s.caller i).tasks.foldl Task.set s.pipeline.settings =
      c.onto (run world before).pipeline.settings := by
  induction pre using List.reverseRecOn with
  | nil =>
    intro s
    have hs : s = (run world before).setCaller i (.begin (.apply c)) := by
      simp only [s, List.append_nil, run_concat, next, begin_of_nil h.idle]
    rw [hs, setCaller_caller_self, setCaller_pipeline]
    exact c.foldl_set_apply _
  | append_singleton pre m ih =>
    intro s
    have hbefore : pre <+: during := (List.prefix_append _ _).trans hpre
    have hmem : m ∈ during := hpre.subset (List.mem_append_right _ List.mem_cons_self)
    have hs : s = (run world (before ++ [.begin i (.apply c)] ++ pre)).next m := by
      simp only [s, ← run_concat, List.append_assoc]
    rw [hs, foldl_set_next (fun call hm => h.once call (hm ▸ hmem)) (h.alone pre m hpre)]
    exact ih hbefore

/-- The settings when the call returns. -/
theorem settings_eq (h : Applying world i c before during) :
    (run world (before ++ [.begin i (.apply c)] ++ during)).pipeline.settings =
      c.onto (run world before).pipeline.settings := by
  have hend := h.settings_of_prefix (List.prefix_refl _)
  simpa only [h.returned, List.foldl_nil] using hend

end Applying

/-- After a configuration has been applied, whatever happened before, its settings are
those of a new logger with it, and those that any other application of it leads to; but
dumping stays on if it was on and the configuration does not say that entries are dumped,
and where they are dumped to stays as it was. -/
theorem application_overwrites {world : World} {i : Nat} {c : Config} {before during : List Move}
    (h : Applying world i c before during) :
    let x := (run world before).pipeline.settings
    let y := (run world (before ++ [.begin i (.apply c)] ++ during)).pipeline.settings
    (∀ w, Config.Agrees y (Pipeline.ofConfig c w).settings ∧
        (c.isDump = true → Config.DumpsAlike y (Pipeline.ofConfig c w).settings)) ∧
      y.dumping = (c.isDump || x.dumping) ∧
      (c.isDump = false → Config.DumpsAlike y x) ∧
      ∀ world' i' before' during', Applying world' i' c before' during' →
        let y' := (run world' (before' ++ [.begin i' (.apply c)] ++ during')).pipeline.settings
        Config.Agrees y y' ∧ (c.isDump = true → Config.DumpsAlike y y') := by
  intro x y
  have hy : y = c.onto x := h.settings_eq
  rw [hy]
  refine ⟨fun w => ?_, c.dumping_onto x, fun hdump => Config.dumpsAlike_onto_self hdump x, ?_⟩
  · rw [Pipeline.settings_ofConfig]
    exact ⟨c.agrees_onto _ _, fun hdump => Config.dumpsAlike_onto hdump _ _⟩
  · intro world' i' before' during' h' y'
    have hy' : y' = c.onto _ := h'.settings_eq
    rw [hy']
    exact ⟨c.agrees_onto _ _, fun hdump => Config.dumpsAlike_onto hdump _ _⟩

/-- A configuration under which entries are dumped. -/
def dumpingConfig : Config :=
  { Config.default with level := .warn, isDump := true, dumpPath := ⟨"app.log"⟩ }

/-- The defaults are applied to a logger that dumps: all is as in a new logger, but that
it goes on to dump to the same file. -/
theorem application_overwrites_dumping :
    let world := World.calm ⟨[], []⟩ fun _ => 0
    let before := .begin 0 (.apply dumpingConfig) :: List.replicate 14 (.act (.caller 0))
    let y := (run world (before ++ [.begin 0 (.apply .default)] ++
      List.replicate 7 (.act (.caller 0)))).pipeline.settings
    Config.Agrees y (Pipeline.ofConfig .default world).settings ∧ y.level = .debug ∧
      y.dumping = true ∧ y.path = ⟨"app.log"⟩ := by
  intro world before y
  have happlying : Applying world 0 .default before (List.replicate 7 (.act (.caller 0))) := by
    refine ⟨List.isEmpty_iff.1 (by decide +kernel), List.isEmpty_iff.1 (by decide +kernel), ?_, ?_⟩
    · intro call hmem
      cases List.eq_of_mem_replicate hmem
    · rintro pre m hpre ⟨j, x, rest, hj, rfl, -⟩
      cases List.eq_of_mem_replicate (hpre.subset (List.mem_append_right _ List.mem_cons_self))
      exact hj rfl
  obtain ⟨hnew, hdumping, hstays, -⟩ := application_overwrites happlying
  refine ⟨(hnew world).1, (hnew world).1.level, hdumping.trans ?_, (hstays rfl).path.trans ?_⟩
  · decide +kernel
  · decide +kernel

/-- The defaults are applied after a configuration under which entries are dumped, and
alone: entries are dumped in the one case, but not in the other, nor by a new logger. -/
theorem dumping_outlives_application :
    let world := World.calm ⟨[], []⟩ fun _ => 0
    let first := .begin 0 (.apply dumpingConfig) :: List.replicate 14 (.act (.caller 0))
    let second := .begin 0 (.apply .default) :: List.replicate 7 (.act (.caller 0))
    ((run world (first ++ second)).caller 0).tasks = [] ∧
      ((run world second).caller 0).tasks = [] ∧
      (run world (first ++ second)).pipeline.dumping = true ∧
      (run world second).pipeline.dumping = false ∧
      (Pipeline.ofConfig .default world).dumping = false := by
  intro world first second
  refine ⟨List.isEmpty_iff.1 ?_, List.isEmpty_iff.1 ?_, ?_, ?_, ?_⟩ <;> decide +kernel

end System

end LogPipeline
