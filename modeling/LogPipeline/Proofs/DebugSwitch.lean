import LogPipeline.Proofs.Ledger.Run

/-!
# The debug switch

The switch is set by a consumer that has looked for the switch file, which it does
only in a round that began while entries were dumped. It stays set when dumping
ends, and lets debug entries through to the sink from then on
(`switch_outlives_dumping`). That is the only way in which it acts while nothing is
dumped: `switch_acts_while_dumping_iff` names the steps after which it does, and
there are none in a run in which dumping is never ended.
-/

namespace LogPipeline

open Sync

namespace Task

/-- What can follow a task: none stores a setting, and an entry is made only after
the switch or the level has let its request through. -/
theorem of_mem_next {i : Nat} {p : Pipeline} {t t' : Task} (h : t' ∈ (t.step i p).next) :
    (∀ setting, t' ≠ .store setting) ∧
      ∀ r, t' = .compose r →
        t = .checkSwitch r ∧ p.switchOn = true ∨ t = .checkLevel r ∧ p.level ≤ r.level := by
  cases t with
  | checkSwitch r =>
    cases hs : p.switchOn with
    | true =>
      obtain rfl : t' = .compose r := by simpa [step, hs] using h
      exact ⟨by simp, fun r' hr => .inl ⟨by cases hr; rfl, rfl⟩⟩
    | false =>
      obtain rfl : t' = .checkLevel r := by simpa [step, hs] using h
      exact ⟨by simp, by simp⟩
  | checkLevel r =>
    by_cases hl : p.level ≤ r.level
    · obtain rfl : t' = .compose r := by simpa [step, hl] using h
      exact ⟨by simp, fun r' hr => .inr ⟨by cases hr; rfl, by cases hr; exact hl⟩⟩
    · simp [step, hl] at h
  | onBuffer c stake =>
    simp only [step] at h
    split at h
    · next reply _ => cases reply <;> simp_all [afterBuffer]
    · simp_all
  | checkStopped =>
    simp only [step, startTasks] at h
    split at h
    · simp at h
    · simp only [List.mem_cons, List.not_mem_nil, or_false] at h
      rcases h with rfl | rfl | rfl | rfl <;> exact ⟨by simp, by simp⟩
  | takeWorker =>
    simp only [step, stopTasks] at h
    split at h
    · simp only [List.mem_cons, List.not_mem_nil, or_false] at h
      rcases h with rfl | rfl | rfl | rfl <;> exact ⟨by simp, by simp⟩
    · simp at h
  | checkBlocks level blocks =>
    simp only [step] at h
    split at h <;> simp_all
  | checkDumping queued =>
    simp only [step] at h
    split at h <;> simp_all
  | checkThreshold queued =>
    simp only [step] at h
    split at h <;> simp_all
  | onEvent name c =>
    simp only [step] at h
    split at h <;> simp_all
  | lockLifecycle =>
    simp only [step] at h
    split at h <;> simp_all
  | join k =>
    simp only [step] at h
    split at h <;> simp_all
  | _ => simp_all [step]

end Task

/-- A request can pass the filter: a task of a caller goes on to make its entry. -/
def Pipeline.LetsThrough (p : Pipeline) (r : Request) : Prop :=
  ∃ i t, (Task.step i p t).next = [.compose r]

/-- The switch lets a request through, or the level does. -/
theorem Pipeline.letsThrough_iff {p : Pipeline} {r : Request} :
    p.LetsThrough r ↔ p.switchOn = true ∨ p.level ≤ r.level := by
  constructor
  · rintro ⟨i, t, h⟩
    have hmem : Task.compose r ∈ (t.step i p).next := h ▸ List.mem_singleton_self _
    exact ((Task.of_mem_next hmem).2 r rfl).imp And.right And.right
  · rintro (hs | hl)
    · exact ⟨0, .checkSwitch r, by simp [Task.step, hs]⟩
    · exact ⟨0, .checkLevel r, by simp [Task.step, hl]⟩

/-- The switch lets debug entries through that the level would keep out, while
nothing is dumped. -/
def Pipeline.Exposed (p : Pipeline) : Prop :=
  p.switchOn = true ∧ p.dumping = false ∧ ¬p.level ≤ .debug

/-! ## What steps do to the switch -/

namespace Task

/-- Callers change the switch, the dumping and the level only by storing them, and
the switch only to take it back. -/
theorem step_settings (i : Nat) (p : Pipeline) (t : Task) :
    ((t.step i p).pipeline.switchOn = p.switchOn ∨ (t.step i p).pipeline.switchOn = false) ∧
      ((t.step i p).pipeline.dumping = p.dumping ∨
        ∃ b, t = .store (.dumping b) ∧ (t.step i p).pipeline.dumping = b) ∧
      ((t.step i p).pipeline.level = p.level ∨
        ∃ l, t = .store (.level l) ∧ (t.step i p).pipeline.level = l) := by
  apply pipeline_cases (P := fun p' => (p'.switchOn = p.switchOn ∨ p'.switchOn = false) ∧
    (p'.dumping = p.dumping ∨ ∃ b, t = store (.dumping b) ∧ p'.dumping = b) ∧
    (p'.level = p.level ∨ ∃ l, t = store (.level l) ∧ p'.level = l))
  case onEvent =>
    intro name c _
    cases name <;> exact ⟨.inl rfl, .inl rfl, .inl rfl⟩
  case store =>
    intro setting ht
    subst ht
    cases setting with
    | switchOff => exact ⟨.inr rfl, .inl rfl, .inl rfl⟩
    | dumping b => exact ⟨.inl rfl, .inr ⟨b, rfl, rfl⟩, .inl rfl⟩
    | level l => exact ⟨.inl rfl, .inl rfl, .inr ⟨l, rfl, rfl⟩⟩
    | _ => exact ⟨.inl rfl, .inl rfl, .inl rfl⟩
  all_goals
    intros
    exact ⟨.inl rfl, .inl rfl, .inl rfl⟩

end Task

namespace Consumer

/-- What a refresh of the switch that ends with the next step has found. -/
def noted (c : Consumer) : Option Bool :=
  match c.stage with
  | .noteSwitch found => some found
  | _ => none

/-- A consumer that is about to look for the switch file, or has just looked. -/
def Refreshing (c : Consumer) : Prop :=
  match c.stage with
  | .seekSwitch | .noteSwitch _ => True
  | _ => False

theorem refreshing_of_noted {c : Consumer} {found : Bool} (h : c.noted = some found) :
    c.Refreshing := by
  unfold noted at h
  unfold Refreshing
  split at h
  · next hs => simp [hs]
  · cases h

/-- A consumer refreshes the switch only after it has seen that entries are dumped. -/
theorem refreshing_of_step {p : Pipeline} {c : Consumer} (h : (c.step p).2.Refreshing) :
    c.Refreshing ∨ p.dumping = true := by
  cases hs : c.stage with
  | top =>
    cases hd : p.dumping with
    | true => exact .inr rfl
    | false => simp [step, hs, hd, Refreshing] at h
  | seekSwitch | noteSwitch found => exact .inl (by simp [Refreshing, hs])
  | print sink rest =>
    cases rest with
    | nil => simp [step, hs, Refreshing] at h
    | cons e rest =>
      simp only [step, hs] at h
      split at h <;> exact h.elim
  | decide =>
    simp only [step, hs, nextRound] at h
    revert h
    split
    · exact False.elim
    · split <;> exact False.elim
  | awaitDump call | idle call | finish call =>
    simp only [step, hs] at h
    revert h
    split <;> exact False.elim
  | checkStop call | takeQueue call =>
    simp only [step, hs] at h
    split at h <;> exact h.elim
  | choose =>
    simp only [step, hs] at h
    revert h
    split
    · exact False.elim
    · split <;> exact False.elim
  | dump | pickSink | flush sink | ended => simp [step, hs, Refreshing] at h

theorem refreshing_expire {c : Consumer} {p : Pipeline} (h : (c.expire p).Refreshing) :
    c.Refreshing := by
  unfold expire at h
  split at h
  · exact h.elim
  · exact h.elim
  · exact h

/-- A consumer sets the switch to what it has found. -/
theorem step_switchOn (p : Pipeline) (c : Consumer) :
    (c.step p).1.switchOn = c.noted.getD p.switchOn := by
  cases hs : c.stage with
  | print sink rest =>
    cases rest with
    | nil => simp [step, noted, hs]
    | cons e rest =>
      simp only [step, noted, hs]
      split <;> rfl
  | flush sink =>
    simp only [step, noted, hs]
    split <;> rfl
  | _ => simp [step, noted, hs, dumpAll, Pipeline.addDropped]

end Consumer

namespace System

/-- What a refresh of the switch that ends with a move has found. -/
def noted (s : System) : Move → Option Bool
  | .act (.consumer j) => s.pipeline.consumers[j]?.bind Consumer.noted
  | _ => none

/-- What the latest refresh of the switch has found, from a state on in which the
latest found as given. -/
def lastNotedFrom (s : System) (last : Option Bool) : List Move → Option Bool
  | [] => last
  | m :: ms => (s.next m).lastNotedFrom ((s.noted m).or last) ms

/-- What the latest refresh of the switch in a run has found. -/
def lastNoted (world : World) (ms : List Move) : Option Bool :=
  (new world).lastNotedFrom none ms

theorem lastNoted_concat (world : World) (ms : List Move) (m : Move) :
    lastNoted world (ms ++ [m]) = ((run world ms).noted m).or (lastNoted world ms) := by
  have h : ∀ (s : System) (last : Option Bool), s.lastNotedFrom last (ms ++ [m]) =
      ((s.runFrom ms).noted m).or (s.lastNotedFrom last ms) := by
    induction ms with
    | nil => exact fun _ _ => rfl
    | cons m' ms ih => exact fun s last => ih (s.next m') _
  exact h _ _

/-- What a move does to the switch, the dumping and the level. -/
theorem next_settings (s : System) (m : Move) :
    ((s.next m).pipeline.switchOn = (s.noted m).getD s.pipeline.switchOn ∨
        (s.next m).pipeline.switchOn = false) ∧
      ((s.next m).pipeline.dumping = s.pipeline.dumping ∨
        ∃ i b rest, m = .act (.caller i) ∧ (s.caller i).tasks = .store (.dumping b) :: rest ∧
          (s.next m).pipeline.dumping = b) ∧
      ((s.next m).pipeline.level = s.pipeline.level ∨
        ∃ i l rest, m = .act (.caller i) ∧ (s.caller i).tasks = .store (.level l) :: rest ∧
          (s.next m).pipeline.level = l) := by
  match m with
  | .begin i call =>
    simp only [next, System.begin]
    split <;> exact ⟨.inl rfl, .inl rfl, .inl rfl⟩
  | .act (.caller i) =>
    cases h : (s.caller i).tasks with
    | nil =>
      rw [next, step_caller_of_nil h]
      exact ⟨.inl rfl, .inl rfl, .inl rfl⟩
    | cons t rest =>
      rw [next, step_caller_of_cons h]
      obtain ⟨hswitch, hdumping, hlevel⟩ := t.step_settings i s.pipeline
      refine ⟨hswitch, hdumping.imp_right ?_, hlevel.imp_right ?_⟩
      · rintro ⟨b, rfl, hb⟩
        exact ⟨i, b, rest, rfl, h, hb⟩
      · rintro ⟨l, rfl, hl⟩
        exact ⟨i, l, rest, rfl, h, hl⟩
  | .act (.consumer j) =>
    cases h : s.pipeline.consumers[j]? with
    | none => simp [next, step, Pipeline.stepConsumer, noted, h]
    | some c =>
      rw [next, step_consumer_of_some h]
      refine ⟨.inl ?_, .inl (Consumer.step_dumping _ _), .inl (Consumer.step_level _ _)⟩
      simp [afterConsumer, Consumer.step_switchOn, noted, h]
  | .act (.timer j) =>
    cases h : s.pipeline.consumers[j]? with
    | none => simp [next, step, Pipeline.expireConsumer, noted, h]
    | some c =>
      rw [next, step_timer_of_some h]
      exact ⟨.inl rfl, .inl rfl, .inl rfl⟩
  | .outside w => exact ⟨.inl rfl, .inl rfl, .inl rfl⟩

theorem consumer_of_noted {s : System} {m : Move} {found : Bool} (h : s.noted m = some found) :
    ∃ k c, m = .act (.consumer k) ∧ s.pipeline.consumers[k]? = some c ∧ c.noted = some found := by
  match m with
  | .act (.consumer k) =>
    obtain ⟨c, hc, hfound⟩ := Option.bind_eq_some_iff.1 h
    exact ⟨k, c, rfl, hc, hfound⟩
  | .begin i call | .act (.caller i) | .act (.timer j) | .outside w => cases h

/-- The switch is on after a refresh that has found the file, or because it was on before. -/
theorem switchOn_of_next {s : System} {m : Move} (h : (s.next m).pipeline.switchOn = true) :
    s.noted m = some true ∨ s.noted m = none ∧ s.pipeline.switchOn = true := by
  rcases (s.next_settings m).1 with hsame | hoff
  · rw [h] at hsame
    cases hnoted : s.noted m with
    | none =>
      rw [hnoted] at hsame
      exact .inr ⟨rfl, hsame.symm⟩
    | some found =>
      rw [hnoted] at hsame
      exact .inl (congrArg some (show true = found from hsame).symm)
  · cases h.symm.trans hoff

/-- While the switch is set, the latest refresh has found the file. -/
theorem switchOn_run (world : World) (ms : List Move)
    (h : (run world ms).pipeline.switchOn = true) : lastNoted world ms = some true := by
  induction ms using List.reverseRecOn with
  | nil => cases h
  | append_singleton ms m ih =>
    rw [run_concat] at h
    rw [lastNoted_concat]
    rcases switchOn_of_next h with hnoted | ⟨hnoted, hon⟩
    · rw [hnoted, Option.some_or]
    · rw [hnoted]
      exact ih hon

/-! ## When the switch acts while nothing is dumped -/

/-- A move after which the switch lets debug entries through that the level would
keep out, while nothing is dumped: dumping ends or the level is raised while the
switch is set, or the switch is set when dumping has ended. -/
def Exposes (s : System) : Move → Prop
  | .act (.caller i) =>
    s.pipeline.switchOn = true ∧ ∃ t rest, (s.caller i).tasks = t :: rest ∧
      (t = .store (.dumping false) ∧ ¬s.pipeline.level ≤ .debug ∨
        ∃ l, t = .store (.level l) ∧ ¬l ≤ .debug ∧ s.pipeline.dumping = false)
  | .act (.consumer j) =>
    s.noted (.act (.consumer j)) = some true ∧ s.pipeline.dumping = false ∧
      ¬s.pipeline.level ≤ .debug
  | _ => False

theorem exposed_next {s : System} {m : Move} (h : s.Exposes m) : (s.next m).pipeline.Exposed := by
  match m with
  | .act (.caller i) =>
    obtain ⟨hswitch, t, rest, ht, hcases⟩ := h
    rw [next, step_caller_of_cons ht]
    rcases hcases with ⟨rfl, hlevel⟩ | ⟨l, rfl, hl, hdumping⟩
    · exact ⟨hswitch, rfl, hlevel⟩
    · exact ⟨hswitch, hdumping, hl⟩
  | .act (.consumer j) =>
    obtain ⟨hnoted, hdumping, hlevel⟩ := h
    obtain ⟨c, hc, hfound⟩ := Option.bind_eq_some_iff.1 hnoted
    rw [next, step_consumer_of_some hc]
    exact ⟨by simp [afterConsumer, Consumer.step_switchOn, hfound],
      by simpa [afterConsumer] using hdumping, by simpa [afterConsumer] using hlevel⟩
  | .begin i call | .act (.timer j) | .outside w => exact h.elim

theorem exposes_of_next {s : System} {m : Move} (h : (s.next m).pipeline.Exposed) :
    s.pipeline.Exposed ∨ s.Exposes m := by
  obtain ⟨hon, hoff, habove⟩ := h
  obtain ⟨-, hdumping, hlevel⟩ := s.next_settings m
  rcases switchOn_of_next hon with hnoted | ⟨-, hswitch⟩
  · -- only a consumer notes what it has found, and it changes neither of the others
    obtain ⟨j, c, rfl, -⟩ := consumer_of_noted hnoted
    rcases hdumping with hdumping | ⟨i, b, rest, hm, -⟩
    · rcases hlevel with hlevel | ⟨i, l, rest, hm, -⟩
      · exact .inr ⟨hnoted, hdumping ▸ hoff, hlevel ▸ habove⟩
      · cases hm
    · cases hm
  · rcases hdumping with hdumping | ⟨i, b, rest, rfl, htasks, hb⟩
    · rcases hlevel with hlevel | ⟨i, l, rest, rfl, htasks, hl⟩
      · exact .inl ⟨hswitch, hdumping ▸ hoff, hlevel ▸ habove⟩
      · exact .inr ⟨hswitch, _, rest, htasks, .inr ⟨l, rfl, hl ▸ habove, hdumping ▸ hoff⟩⟩
    · obtain rfl : b = false := hb.symm.trans hoff
      rcases hlevel with hlevel | ⟨i', l, rest', hm, htasks', -⟩
      · exact .inr ⟨hswitch, _, rest, htasks, .inl ⟨rfl, hlevel ▸ habove⟩⟩
      · cases hm
        cases htasks.symm.trans htasks'

/-- After every run, the switch lets debug entries through that the level would keep
out only while entries are dumped, unless a move of the run has exposed it. -/
theorem not_exposed_run (world : World) (ms : List Move)
    (h : ∀ pre m, pre ++ [m] <+: ms → ¬(run world pre).Exposes m) :
    ¬(run world ms).pipeline.Exposed := by
  induction ms using List.reverseRecOn with
  | nil => exact fun hexposed => by cases hexposed.1
  | append_singleton ms m ih =>
    rw [run_concat]
    intro hexposed
    rcases exposes_of_next hexposed with hbefore | hm
    · exact ih (fun pre m' hpre => h pre m' (hpre.trans (List.prefix_append _ _))) hbefore
    · exact h ms m (List.prefix_refl _) hm

end System

/-! ## Runs in which dumping is never ended -/

/-- Only one call stores that nothing is dumped. -/
theorem Call.eq_stopDump {call : Call} (h : Task.store (.dumping false) ∈ call.tasks) :
    call = .stopDump := by
  cases call with
  | stopDump => rfl
  | log r =>
    simp only [tasks] at h
    split at h <;> simp at h
  | apply c =>
    simp only [tasks, applyTasks, switchFileTasks, startDumpTasks] at h
    split at h <;> simp at h
  | _ => simp [tasks, switchFileTasks, startDumpTasks] at h

namespace System

/-- Nobody is about to end dumping, and the switch is set or refreshed only while
entries are dumped. -/
structure Attached (s : System) : Prop where
  tasks : ∀ i, Task.store (.dumping false) ∉ (s.caller i).tasks
  switch : s.pipeline.switchOn = true → s.pipeline.dumping = true
  refreshing : ∀ c ∈ s.pipeline.consumers, c.Refreshing → s.pipeline.dumping = true

theorem Attached.not_exposes {s : System} (h : s.Attached) (m : Move) : ¬s.Exposes m := by
  match m with
  | .act (.caller i) =>
    rintro ⟨hswitch, t, rest, ht, ⟨rfl, -⟩ | ⟨l, -, -, hoff⟩⟩
    · exact h.tasks i (ht ▸ List.mem_cons_self)
    · cases hoff.symm.trans (h.switch hswitch)
  | .act (.consumer j) =>
    rintro ⟨hnoted, hoff, -⟩
    obtain ⟨k, c, -, hc, hfound⟩ := consumer_of_noted hnoted
    have hon := h.refreshing c (List.mem_of_getElem? hc) (Consumer.refreshing_of_noted hfound)
    cases hoff.symm.trans hon
  | .begin i call | .act (.timer j) | .outside w => exact id

/-- Entries are dumped for as long as nobody is about to end it. -/
theorem Attached.dumping_next {s : System} (h : s.Attached) (m : Move)
    (hon : s.pipeline.dumping = true) : (s.next m).pipeline.dumping = true := by
  rcases (s.next_settings m).2.1 with hsame | ⟨i, b, rest, -, ht, hb⟩
  · rw [hsame, hon]
  · cases b with
    | true => exact hb
    | false => exact (h.tasks i (ht ▸ List.mem_cons_self)).elim

theorem attached_next {s : System} (h : s.Attached) {m : Move}
    (hm : ∀ i, m ≠ .begin i .stopDump) : (s.next m).Attached where
  tasks := by
    apply next_cases (P := fun s' => ∀ i, Task.store (.dumping false) ∉ (s'.caller i).tasks)
    case begin =>
      intro i call hbegin _
      apply forall_setCaller (P := fun _ c => Task.store (.dumping false) ∉ c.tasks)
      · intro hmem
        exact hm i (hbegin.trans (congrArg _ (Call.eq_stopDump hmem)))
      · exact fun j _ => h.tasks j
    case task =>
      intro i t rest ht
      apply forall_setCaller (P := fun _ c => Task.store (.dumping false) ∉ c.tasks)
      · intro hmem
        rcases List.mem_append.1 hmem with hnext | hrest
        · exact (Task.of_mem_next hnext).1 _ rfl
        · exact h.tasks i (ht ▸ List.mem_cons_of_mem _ hrest)
      · exact fun j _ => h.tasks j
    all_goals
      intros
      exact h.tasks _
  switch hon := by
    refine h.dumping_next m ?_
    rcases switchOn_of_next hon with hnoted | ⟨-, hon⟩
    · -- the consumer that sets the switch has begun to refresh it before
      obtain ⟨k, c, -, hc, hfound⟩ := consumer_of_noted hnoted
      exact h.refreshing c (List.mem_of_getElem? hc) (Consumer.refreshing_of_noted hfound)
    · exact h.switch hon
  refreshing := by
    intro d hd hrefreshing
    obtain ⟨k, hk⟩ := List.getElem?_of_mem hd
    refine h.dumping_next m ?_
    rcases next_consumer hk with rfl | ⟨c, hc, hcases⟩
    · exact hrefreshing.elim
    · have hbefore := h.refreshing c (List.mem_of_getElem? hc)
      rcases hcases with rfl | rfl | rfl
      · exact hbefore hrefreshing
      · exact (Consumer.refreshing_of_step hrefreshing).elim hbefore id
      · exact hbefore (Consumer.refreshing_expire hrefreshing)

/-- In a run in which nobody begins to end dumping, the switch acts only while
entries are dumped. -/
theorem attached_run (world : World) (ms : List Move) (h : ∀ i, Move.begin i .stopDump ∉ ms) :
    (run world ms).Attached := by
  induction ms using List.reverseRecOn with
  | nil =>
    refine ⟨fun i => ?_, fun hon => ?_, fun c hc => ?_⟩
    · simp [run_nil, new, Caller.idle]
    · cases hon
    · cases hc
  | append_singleton ms m ih =>
    rw [run_concat]
    exact attached_next (ih fun i hi => h i (List.mem_append_left _ hi))
      fun i hm => h i (hm ▸ List.mem_append_right _ (List.mem_singleton_self _))

/-! ## The guard of the debug entries -/

/-- After a run, a debug entry that the level would keep out passes the filter only
if entries are dumped and the latest refresh has found the switch file. -/
def Guarded (world : World) (ms : List Move) : Prop :=
  ∀ r : Request, r.level = .debug → ¬(run world ms).pipeline.level ≤ .debug →
    (run world ms).pipeline.LetsThrough r →
    (run world ms).pipeline.dumping = true ∧ lastNoted world ms = some true

theorem guarded_iff {world : World} {ms : List Move} :
    Guarded world ms ↔ ¬(run world ms).pipeline.Exposed := by
  constructor
  · rintro h ⟨hon, hoff, habove⟩
    have hlets := Pipeline.letsThrough_iff (r := ⟨.debug, "", [], ⟨"", 0⟩⟩).2 (.inl hon)
    cases hoff.symm.trans (h _ rfl habove hlets).1
  · intro h r hr habove hlets
    rcases Pipeline.letsThrough_iff.1 hlets with hon | hlevel
    · refine ⟨?_, switchOn_run world ms hon⟩
      cases hd : (run world ms).pipeline.dumping with
      | true => rfl
      | false => exact (h ⟨hon, hd, habove⟩).elim
    · exact (habove (hr ▸ hlevel)).elim

/-- The guard holds all along a run exactly if no move of it ends dumping or raises
the level while the switch is set, or sets the switch after dumping has ended; and
so it does if nobody begins to end dumping. -/
theorem switch_acts_while_dumping_iff (world : World) (ms : List Move) :
    ((∀ pre, pre <+: ms → Guarded world pre) ↔
        ∀ pre m, pre ++ [m] <+: ms → ¬(run world pre).Exposes m) ∧
      ((∀ i, Move.begin i .stopDump ∉ ms) → ∀ pre, pre <+: ms → Guarded world pre) := by
  have hguarded : (∀ pre m, pre ++ [m] <+: ms → ¬(run world pre).Exposes m) →
      ∀ pre, pre <+: ms → Guarded world pre := fun h pre hpre =>
    guarded_iff.2 (not_exposed_run world pre fun pre' m hpre' => h pre' m (hpre'.trans hpre))
  refine ⟨⟨fun h pre m hpre hexposes => ?_, hguarded⟩, fun h => hguarded fun pre m hpre => ?_⟩
  · refine guarded_iff.1 (h _ hpre) ?_
    rw [run_concat]
    exact exposed_next hexposes
  · have hnever : ∀ i, Move.begin i .stopDump ∉ pre := fun i hi =>
      h i (hpre.subset (List.mem_append_left _ hi))
    exact (attached_run world pre hnever).not_exposes m

/-- Moves that set the switch: the level is raised, entries are dumped, and a
consumer is started and finds the switch file. -/
def switchOnMoves : List Move :=
  .begin 0 (.setLevel .info) :: .act (.caller 0) ::
    .begin 0 (.startDump ⟨"app.log"⟩ 33554432 1000 10) :: List.replicate 7 (.act (.caller 0)) ++
    .begin 0 .start :: List.replicate 17 (.act (.caller 0)) ++
    List.replicate 3 (.act (.consumer 0))

/-- The switch lets a debug entry through, in a run in which nobody ends dumping. -/
theorem switch_acts_while_dumping :
    let world := World.calm ⟨[(["debug.sf"], .file [] 0)], []⟩ fun _ => 0
    let r : Request := ⟨.debug, "t", [], ⟨"f", 1⟩⟩
    (run world switchOnMoves).pipeline.level = .info ∧
      (run world switchOnMoves).pipeline.LetsThrough r ∧
      (run world switchOnMoves).pipeline.dumping = true ∧
      lastNoted world switchOnMoves = some true := by
  intro world r
  have hlevel : (run world switchOnMoves).pipeline.level = .info := by decide +kernel
  have hlets : (run world switchOnMoves).pipeline.LetsThrough r :=
    Pipeline.letsThrough_iff.2 (.inl (by decide +kernel))
  have hnever : ∀ i, Move.begin i .stopDump ∉ switchOnMoves := by
    simp [switchOnMoves]
  have hguarded := (switch_acts_while_dumping_iff world switchOnMoves).2 hnever _ (List.prefix_refl _)
  exact ⟨hlevel, hlets, hguarded r rfl (by rw [hlevel]; decide) hlets⟩

/-- When dumping has been ended, the switch is still set: a debug entry is accepted
and printed, although nothing is dumped and the level would keep it out. -/
theorem switch_outlives_dumping :
    let world := World.calm ⟨[(["debug.sf"], .file [] 0)], []⟩ fun _ => 0
    let ended := switchOnMoves ++ .begin 0 .stopDump :: List.replicate 4 (.act (.caller 0))
    let logged := ended ++ .begin 0 (.log ⟨.debug, "t", [], ⟨"f", 1⟩⟩) ::
      List.replicate 7 (.act (.caller 0))
    let printed := logged ++ List.replicate 6 (.act (.consumer 0)) ++ .act (.timer 0) ::
      List.replicate 13 (.act (.consumer 0))
    ((run world ended).caller 0).tasks = [] ∧ ¬Guarded world ended ∧
      (ledger world ended).accepted = [] ∧
      (ledger world logged).accepted.map Entry.level = [.debug] ∧
      (run world printed).pipeline.dumping = false ∧
      (ledger world printed).handed.map (fun h => (h.1.level, h.2.line?.isSome)) =
        [(.debug, true)] := by
  intro world ended logged printed
  refine ⟨by decide +kernel, ?_, by decide +kernel, by decide +kernel, by decide +kernel,
    by decide +kernel⟩
  rw [guarded_iff, not_not]
  exact ⟨by decide +kernel, by decide +kernel, by decide +kernel⟩

end System

end LogPipeline
