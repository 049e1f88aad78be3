import LogPipeline.Pipeline.Handle
import LogPipeline.Proofs.DebugSwitch
import LogPipeline.Proofs.Ledger.History

/-!
# The level filter

There are several ways to log at a level: the call named for it, the call that takes it, and
the call that takes blocks, each also through the handle of a component (`Call.LogsAt`). The
filter is through with each of them after at most two steps of its caller, whatever others do
between them, and its decision depends on the least level and the debug switch alone
(`decides_of_steps`). The decisions are the same except that the debug switch lets no blocks
through: while it is on and the least level is above debug, debug entries pass and debug blocks
do not (`entry_points_agree_iff`, `switch_ignores_blocks`).
-/

namespace LogPipeline

/-- The ways to log at a level. -/
inductive Call.LogsAt (level : Level) : Call → Prop
  | named (tag : String) (args : List Arg) (site : CallSite) :
    LogsAt level (.named level tag args site)
  | log (tag : String) (args : List Arg) (site : CallSite) :
    LogsAt level (.log ⟨level, tag, args, site⟩)
  | detail {blocks : List (List Arg)} (some : blocks ≠ []) : LogsAt level (.detail level blocks)
  | taggedNamed (t : TaggedLogger) (args : List Arg) (site : CallSite) :
    LogsAt level (t.named level args site)
  | taggedLog (t : TaggedLogger) (args : List Arg) (site : CallSite) :
    LogsAt level (t.log level args site)
  | taggedDetail (t : TaggedLogger) {blocks : List (List Arg)} (some : blocks ≠ []) :
    LogsAt level (t.detail level blocks)

/-- Whether a call logs blocks. -/
def Call.isDetail : Call → Bool
  | .detail _ _ => true
  | _ => false

/-- A call at a level passes the filter: the level is not below the least one, or the call logs
a debug entry and the debug switch is on. -/
def Pipeline.Passes (p : Pipeline) (level : Level) (call : Call) : Prop :=
  p.level ≤ level ∨ level = .debug ∧ p.switchOn = true ∧ call.isDetail = false

instance (p : Pipeline) (level : Level) (call : Call) : Decidable (p.Passes level call) :=
  inferInstanceAs (Decidable (_ ∨ _))

/-- When the switch has no say, only the level counts. -/
theorem Pipeline.passes_iff_le {p : Pipeline} {level : Level} {call : Call}
    (h : ¬(level = .debug ∧ p.switchOn = true ∧ ¬p.level ≤ .debug)) :
    p.Passes level call ↔ p.level ≤ level := by
  refine ⟨?_, .inl⟩
  rintro (hle | ⟨rfl, hswitch, -⟩)
  · exact hle
  · exact not_not.1 fun habove => h ⟨rfl, hswitch, habove⟩

/-- Whatever way is taken, there is an entry to filter, or there are blocks. -/
theorem Call.LogsAt.cases {level : Level} {call : Call} (h : call.LogsAt level) :
    (∃ r : Request, r.level = level ∧ call = .log r) ∨
      ∃ blocks, blocks ≠ [] ∧ call = .detail level blocks := by
  cases h with
  | log | taggedLog => exact .inl ⟨_, rfl, rfl⟩
  | named | taggedNamed => cases level <;> exact .inl ⟨_, rfl, rfl⟩
  | detail some | taggedDetail _ some => exact .inr ⟨_, some, rfl⟩

namespace Task

/-- A task of the filter: its caller looks at a setting before it makes an entry. -/
def isFilter : Task → Bool
  | .checkSwitch _ | .checkLevel _ | .checkBlocks _ _ => true
  | _ => false

/-- What a step of a caller decides about its call if it is the last one of the filter: the
call is accepted if there is something else left to do, and rejected otherwise. -/
def decision (i : Nat) (p : Pipeline) (t : Task) : List Bool :=
  if t.isFilter then
    match (t.step i p).next with
    | [] => [false]
    | t' :: _ => if t'.isFilter then [] else [true]
  else []

/-- What a caller decides with the first of its tasks. -/
def decisionOfHead (i : Nat) (p : Pipeline) (tasks : List Task) : List Bool :=
  tasks.head?.elim [] (decision i p)

end Task

namespace System

/-- What a move decides about the call of a caller. -/
def decisionOf (i : Nat) (s : System) : Move → List Bool
  | .act (.caller j) =>
    if j = i then Task.decisionOfHead i s.pipeline (s.caller i).tasks else []
  | _ => []

/-- What the filter decides about a call that a caller begins, if the caller takes its first
two steps at once. -/
def decides (s : System) (i : Nat) (call : Call) : List Bool :=
  (s.begin i call).historyFrom (decisionOf i) [.act (.caller i), .act (.caller i)]

/-- The level and the debug switch stay as they are along some moves. -/
def FilterStays (s : System) (ms : List Move) : Prop :=
  ∀ pre, pre <+: ms → (s.runFrom pre).pipeline.level = s.pipeline.level ∧
    (s.runFrom pre).pipeline.switchOn = s.pipeline.switchOn

/-- Moves of others than a caller. -/
def Elsewhere (i : Nat) (ms : List Move) : Prop :=
  ∀ m ∈ ms, m ≠ .act (.caller i) ∧ ∀ call, m ≠ .begin i call

end System

/-! ## The filter of one call -/

namespace Task

variable {i : Nat} {p p' : Pipeline}

/-- The filter changes nothing. -/
theorem pipeline_step_of_filter {t : Task} (h : t.isFilter = true) :
    (t.step i p).pipeline = p := by
  cases t with
  | checkSwitch | checkLevel => rfl
  | checkBlocks level blocks =>
    simp only [step]
    split <;> rfl
  | _ => cases h

theorem decision_of_not_filter {t : Task} (h : t.isFilter = false) : t.decision i p = [] := by
  simp [decision, h]

/-- A step of the filter that leads to an entry accepts it, and one that leads to nothing
rejects. -/
theorem decision_checkLevel (i : Nat) (p : Pipeline) (r : Request) :
    (Task.checkLevel r).decision i p = [decide (p.level ≤ r.level)] ∧
      ∀ t ∈ ((Task.checkLevel r).step i p).next, t.isFilter = false := by
  by_cases h : p.level ≤ r.level <;> simp [decision, isFilter, step, h]

theorem decision_checkBlocks (i : Nat) (p : Pipeline) (level : Level) {blocks : List (List Arg)}
    (hsome : blocks ≠ []) :
    (Task.checkBlocks level blocks).decision i p = [decide (p.level ≤ level)] ∧
      ∀ t ∈ ((Task.checkBlocks level blocks).step i p).next, t.isFilter = false := by
  by_cases h : p.level ≤ level <;> simp [decision, isFilter, step, h, hsome]

/-- The debug switch lets an entry through, or leaves it to the level. -/
theorem decision_checkSwitch (i : Nat) (p : Pipeline) (r : Request) :
    p.switchOn = true ∧ (Task.checkSwitch r).decision i p = [true] ∧
        ((Task.checkSwitch r).step i p).next = [.compose r] ∨
      p.switchOn = false ∧ (Task.checkSwitch r).decision i p = [] ∧
        ((Task.checkSwitch r).step i p).next = [.checkLevel r] := by
  cases h : p.switchOn with
  | true =>
    have hnext : ((Task.checkSwitch r).step i p).next = [.compose r] := by simp [step, h]
    exact .inl ⟨rfl, by simp [decision, isFilter, hnext], hnext⟩
  | false =>
    have hnext : ((Task.checkSwitch r).step i p).next = [.checkLevel r] := by simp [step, h]
    exact .inr ⟨rfl, by simp [decision, isFilter, hnext], hnext⟩

theorem decisionOfHead_of_not_filter {tasks : List Task} (h : ∀ t ∈ tasks, t.isFilter = false) :
    decisionOfHead i p tasks = [] := by
  cases tasks with
  | nil => rfl
  | cons t tasks => exact decision_of_not_filter (h t List.mem_cons_self)

end Task

/-- The first two steps of a caller, each under a pipeline with the same level, make one
decision about its call. -/
theorem Call.LogsAt.decision {level : Level} {call : Call} (h : call.LogsAt level) (i : Nat)
    {p p' : Pipeline} (hlevel : p'.level = p.level) :
    ∃ t, call.tasks = [t] ∧ t.isFilter = true ∧
      t.decision i p ++ Task.decisionOfHead i p' (t.step i p).next =
        [decide (p.Passes level call)] := by
  rcases h.cases with ⟨r, rfl, rfl⟩ | ⟨blocks, hsome, rfl⟩
  · by_cases hdebug : r.level = .debug
    · refine ⟨.checkSwitch r, by simp [Call.tasks, hdebug], rfl, ?_⟩
      rcases Task.decision_checkSwitch i p r with ⟨hs, hdecision, hnext⟩ | ⟨hs, hdecision, hnext⟩
      · have hpasses : p.Passes r.level (.log r) := .inr ⟨hdebug, hs, rfl⟩
        rw [hdecision, hnext, Task.decisionOfHead_of_not_filter (by simp [Task.isFilter])]
        simp [hpasses]
      · have hpasses : p.Passes r.level (.log r) ↔ p'.level ≤ r.level := by
          simp [Pipeline.Passes, hs, hlevel]
        rw [hdecision, hnext, List.nil_append]
        simp [Task.decisionOfHead, (Task.decision_checkLevel i p' r).1, hpasses]
    · have hpasses : p.Passes r.level (.log r) ↔ p.level ≤ r.level := by
        simp [Pipeline.Passes, hdebug]
      obtain ⟨hdecision, hnext⟩ := Task.decision_checkLevel i p r
      refine ⟨.checkLevel r, by simp [Call.tasks, hdebug], rfl, ?_⟩
      rw [hdecision, Task.decisionOfHead_of_not_filter hnext]
      simp [hpasses]
  · have hpasses : p.Passes level (.detail level blocks) ↔ p.level ≤ level := by
      simp [Pipeline.Passes, Call.isDetail]
    obtain ⟨hdecision, hnext⟩ := Task.decision_checkBlocks i p level hsome
    refine ⟨.checkBlocks level blocks, rfl, rfl, ?_⟩
    rw [hdecision, Task.decisionOfHead_of_not_filter hnext]
    simp [hpasses]

/-! ## The filter in a run -/

namespace System

variable {s : System} {i : Nat} {level : Level} {call : Call} {ms others others' : List Move}

/-- What others do leaves a caller where it is, and decides nothing about its call. -/
theorem Elsewhere.run (h : Elsewhere i ms) (s : System) :
    (s.runFrom ms).caller i = s.caller i ∧ s.historyFrom (decisionOf i) ms = [] := by
  induction ms generalizing s with
  | nil => exact ⟨rfl, rfl⟩
  | cons m ms ih =>
    obtain ⟨hact, hbegin⟩ := h m List.mem_cons_self
    obtain ⟨hcaller, hdecisions⟩ := ih (fun m' hm' => h m' (List.mem_cons_of_mem m hm')) (s.next m)
    have hsame : (s.next m).caller i = s.caller i := by
      cases ht : (s.caller i).tasks with
      | nil => exact next_caller_of_idle ht hbegin
      | cons t rest => exact next_caller_of_ne (by simp [ht]) hact
    have hnone : decisionOf i s m = [] := by
      match m with
      | .act (.caller j) =>
        have hj : j ≠ i := fun hj => hact (by rw [hj])
        exact if_neg hj
      | .begin .. | .act (.consumer _) | .act (.timer _) | .outside _ => rfl
    exact ⟨hcaller.trans hsame, by rw [historyFrom, hnone, hdecisions]; rfl⟩

theorem decisionOf_act (i : Nat) (s : System) :
    decisionOf i s (.act (.caller i)) = Task.decisionOfHead i s.pipeline (s.caller i).tasks :=
  if_pos rfl

/-- With the second step of its caller the filter is through with a call, and has decided by
the level and the debug switch alone, whatever else others have done meanwhile. -/
theorem decides_of_steps (hidle : (s.caller i).tasks = []) (hcall : call.LogsAt level)
    (hothers : Elsewhere i others) (hothers' : Elsewhere i others')
    (hstays : (s.begin i call).FilterStays (others ++ .act (.caller i) :: others')) :
    (s.begin i call).historyFrom (decisionOf i)
        (others ++ .act (.caller i) :: others' ++ [.act (.caller i)]) =
      [decide (s.pipeline.Passes level call)] := by
  obtain ⟨q, hq⟩ : ∃ q, (s.begin i call).runFrom others = q := ⟨_, rfl⟩
  obtain ⟨q', hq'⟩ : ∃ q', (q.next (.act (.caller i))).runFrom others' = q' := ⟨_, rfl⟩
  have hpipeline : (s.begin i call).pipeline = s.pipeline := by rw [begin_of_nil hidle]; rfl
  have hrun : (s.begin i call).runFrom (others ++ .act (.caller i) :: others') = q' := by
    rw [← hq', ← hq, runFrom, List.foldl_append]
    rfl
  -- the caller takes its two steps in states with the level and the switch of `s`
  have hfirst := hstays others (List.prefix_append _ _)
  have hsecond := hstays _ (List.prefix_refl _)
  rw [hq, hpipeline] at hfirst
  rw [hrun, hpipeline] at hsecond
  have hpasses : q.pipeline.Passes level call ↔ s.pipeline.Passes level call := by
    simp only [Pipeline.Passes, hfirst]
  obtain ⟨t, htasks, -, hdecision⟩ := hcall.decision i (hsecond.1.trans hfirst.1.symm)
  have hcaller : (q.caller i).tasks = [t] := by
    rw [← hq, (hothers.run _).1, begin_of_nil hidle, setCaller_caller_self, Caller.begin, htasks]
  have hcaller' : (q'.caller i).tasks = (t.step i q.pipeline).next := by
    rw [← hq', (hothers'.run _).1, next, step_caller_of_cons hcaller]
    simp [afterTask]
  rw [historyFrom_append, historyFrom_append, (hothers.run _).2, hrun, hq, historyFrom,
    (hothers'.run _).2, historyFrom, historyFrom, decisionOf_act, decisionOf_act, hcaller, hcaller']
  simpa [Task.decisionOfHead, hpasses] using hdecision

/-- Right after a run, and wherever the caller is, a call at a level is decided so. -/
theorem decides_eq (hidle : (s.caller i).tasks = []) (hcall : call.LogsAt level) :
    s.decides i call = [decide (s.pipeline.Passes level call)] := by
  have hnobody : Elsewhere i [] := nofun
  refine decides_of_steps hidle hcall hnobody hnobody fun pre hpre => ?_
  obtain ⟨t, htasks, hfilter, -⟩ := hcall.decision i (p := s.pipeline) rfl
  rcases List.prefix_cons_iff.1 hpre with rfl | ⟨rest, rfl, hrest⟩
  · exact ⟨rfl, rfl⟩
  · obtain rfl := List.prefix_nil.1 hrest
    have hcaller : ((s.begin i call).caller i).tasks = [t] := by
      rw [begin_of_nil hidle, setCaller_caller_self, Caller.begin, htasks]
    have hsame : ((s.begin i call).runFrom [.act (.caller i)]).pipeline =
        (s.begin i call).pipeline := by
      rw [runFrom, List.foldl_cons, List.foldl_nil, next, step_caller_of_cons hcaller, afterTask,
        setCaller_pipeline]
      exact Task.pipeline_step_of_filter hfilter
    exact ⟨congrArg Pipeline.level hsame, congrArg Pipeline.switchOn hsame⟩

/-- At every state of a run, the ways to log at a level are decided alike but for one thing: the
debug switch lets debug entries through and no debug blocks. So all of them agree exactly unless
the level is debug, the switch is on and the least level is above debug. The decision stays the
same when others do something between the steps of the caller, if they leave the level and the
switch. -/
theorem entry_points_agree_iff {world : World} {ms : List Move} {i : Nat}
    (hidle : ((run world ms).caller i).tasks = []) (level : Level) :
    let s := run world ms
    (∀ call, call.LogsAt level → s.decides i call = [decide (s.pipeline.Passes level call)]) ∧
      ((∀ call call', call.LogsAt level → call'.LogsAt level →
          s.decides i call = s.decides i call') ↔
        ¬(level = .debug ∧ s.pipeline.switchOn = true ∧ ¬s.pipeline.level ≤ .debug)) ∧
      (∀ call call', call.LogsAt level → call'.LogsAt level → call.isDetail = call'.isDetail →
        s.decides i call = s.decides i call') ∧
      ∀ call others others', call.LogsAt level → Elsewhere i others → Elsewhere i others' →
        (s.begin i call).FilterStays (others ++ .act (.caller i) :: others') →
        (s.begin i call).historyFrom (decisionOf i)
          (others ++ .act (.caller i) :: others' ++ [.act (.caller i)]) = s.decides i call := by
  intro s
  have hdecides : ∀ call, call.LogsAt level →
      s.decides i call = [decide (s.pipeline.Passes level call)] := fun call => decides_eq hidle
  refine ⟨hdecides, ⟨fun hagree => ?_, fun hnot call call' hcall hcall' => ?_⟩,
    fun call call' hcall hcall' hsame => ?_, fun call others others' hcall ho ho' hstays => ?_⟩
  · rintro ⟨rfl, hswitch, habove⟩
    have hlog : Call.LogsAt .debug _ := .log "" [] ⟨"", 0⟩
    have hdetail : Call.LogsAt .debug (.detail .debug [[]]) := .detail (by simp)
    have h := hagree _ _ hlog hdetail
    rw [hdecides _ hlog, hdecides _ hdetail] at h
    simp [Pipeline.Passes, hswitch, habove, Call.isDetail] at h
  · rw [hdecides call hcall, hdecides call' hcall']
    simp only [Pipeline.passes_iff_le hnot]
  · have hpasses : s.pipeline.Passes level call ↔ s.pipeline.Passes level call' := by
      simp only [Pipeline.Passes, hsame]
    rw [hdecides call hcall, hdecides call' hcall']
    simp only [hpasses]
  · rw [hdecides call hcall]
    exact decides_of_steps hidle hcall ho ho' hstays

/-- While the switch is on and the least level is info, a debug entry passes, and not all ways to
log it agree. -/
theorem entry_points_agree_iff_of_switch :
    let s := run (.calm ⟨[(["debug.sf"], .file [] 0)], []⟩ fun _ => 0) switchOnMoves
    (s.caller 0).tasks = [] ∧ s.decides 0 (.debug "t" [] ⟨"f", 1⟩) = [true] ∧
      ¬∀ call call', call.LogsAt .debug → call'.LogsAt .debug →
        s.decides 0 call = s.decides 0 call' := by
  intro s
  have hidle : (s.caller 0).tasks = [] := by decide +kernel
  have hswitch : s.pipeline.switchOn = true := by decide +kernel
  have habove : ¬s.pipeline.level ≤ .debug := by decide +kernel
  obtain ⟨hdecides, hagree, -⟩ := entry_points_agree_iff hidle .debug
  have hpasses : s.pipeline.Passes .debug (.debug "t" [] ⟨"f", 1⟩) := .inr ⟨rfl, hswitch, rfl⟩
  refine ⟨hidle, (hdecides _ (.named "t" [] ⟨"f", 1⟩)).trans ?_, fun h => ?_⟩
  · exact congrArg (fun b => [b]) (decide_eq_true hpasses)
  · exact hagree.1 h ⟨rfl, hswitch, habove⟩

/-- While the switch file is there and entries are dumped, a debug entry is queued, however it is
logged, and a debug block is rejected. -/
theorem switch_ignores_blocks :
    let world := World.calm ⟨[(["debug.sf"], .file [] 0)], []⟩ fun _ => 0
    let s := run world switchOnMoves
    let accepted (call : Call) := (ledger world (switchOnMoves ++ .begin 0 call ::
      List.replicate 7 (.act (.caller 0)))).accepted.map Entry.level
    let t : TaggedLogger := ⟨"t"⟩
    s.pipeline.world.disk.has ⟨"debug.sf"⟩ = true ∧ s.pipeline.dumping = true ∧
      s.pipeline.switchOn = true ∧ s.pipeline.level = .info ∧
      accepted (.debug "t" [.text "x"] ⟨"f", 1⟩) = [.debug] ∧
      accepted (.log ⟨.debug, "t", [.text "x"], ⟨"f", 1⟩⟩) = [.debug] ∧
      accepted (t.named .debug [.text "x"] ⟨"f", 1⟩) = [.debug] ∧
      accepted (t.log .debug [.text "x"] ⟨"f", 1⟩) = [.debug] ∧
      accepted (.detail .debug [[.text "x"]]) = [] ∧
      s.decides 0 (.detail .debug [[.text "x"]]) = [false] := by
  decide +kernel

end System

end LogPipeline
