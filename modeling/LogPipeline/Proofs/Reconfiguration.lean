import LogPipeline.Proofs.DebugSwitch
import LogPipeline.Proofs.Ledger.Effects

/-!
# What a setting does to later entries

Whether entries are dumped, to which file, and by which sink they are printed, is
read by a consumer after it has taken the queue. So once a call has changed one of
these settings, a consumer can have missed the change only for entries it had taken
by then (`Setting.missed_of_step`), and every entry accepted later leaves as the
setting says, unless another call changes it again (`reconfiguration_takes_effect`).
A call that has begun earlier can do so too, and a sink can panic
(`reconfiguration_overtaken`).

Entries are told by their places: those accepted and those that have left are in the
same order (`conserved_run`), so the entry accepted at some place leaves at that
place.
-/

namespace LogPipeline

open Sync

namespace Setting

/-! ## Settings in force -/

/-- A setting is in force, as far as it decides how entries leave. -/
def InForce (p : Pipeline) : Setting → Prop
  | .dumping b => p.dumping = b
  | .target path _ => p.writer.path = path
  | .sink s => p.sink = s
  | _ => True

/-- One setting can put another out of force. -/
def Overrides (setting' setting : Setting) : Prop :=
  ∃ p, setting.InForce p ∧ ¬setting.InForce (setting'.apply p)

/-- What a setting says of how entries leave. -/
def Permits : Setting → Departure → Prop
  | .dumping b, d => d.isDump = b
  | .target path _, .written q => q = path
  | .sink s, .printed s' => s' = s
  | _, _ => True

/-- A consumer at this stage has not noticed the setting: it goes on to hand over
what it has in another way. -/
def Missed : Setting → ConsumerStage → Prop
  | .dumping false, .dump => True
  | .dumping true, .pickSink | .dumping true, .print _ _ => True
  | .sink s, .print s' _ => s' ≠ s
  | _, _ => False

theorem inForce_apply (setting : Setting) (p : Pipeline) : setting.InForce (setting.apply p) := by
  cases setting <;> first | rfl | trivial

variable {setting : Setting}

theorem missed_dump : setting.Missed .dump ↔ setting = .dumping false := by
  cases setting with
  | dumping b => cases b <;> simp [Missed]
  | _ => simp [Missed]

theorem missed_pickSink : setting.Missed .pickSink ↔ setting = .dumping true := by
  cases setting with
  | dumping b => cases b <;> simp [Missed]
  | _ => simp [Missed]

theorem missed_print {sink : Sink} {rest : List Entry} :
    setting.Missed (.print sink rest) ↔
      setting = .dumping true ∨ ∃ s, setting = .sink s ∧ sink ≠ s := by
  cases setting with
  | dumping b => cases b <;> simp [Missed]
  | _ => simp [Missed]

end Setting

/-- A consumer at this stage is to hand over what it has taken, in a way it has
chosen. -/
def ConsumerStage.HandsOver : ConsumerStage → Prop
  | .dump | .pickSink | .print _ _ => True
  | _ => False

theorem Setting.Missed.handsOver {setting : Setting} {stage : ConsumerStage}
    (h : setting.Missed stage) : stage.HandsOver := by
  unfold Missed at h
  split at h <;> trivial

theorem ConsumerStage.HandsOver.ne_ended {stage : ConsumerStage} (h : stage.HandsOver) :
    stage ≠ .ended := by
  rintro rfl
  exact h

namespace Consumer

/-- How a consumer comes to hand over what it has taken, and goes on with it. -/
theorem handsOver_of_step {p : Pipeline} {c : Consumer} (h : (c.step p).2.stage.HandsOver) :
    c.stage = .choose ∧ (c.step p).2.stage = .dump ∧ p.dumping = true ∨
      c.stage = .choose ∧ (c.step p).2.stage = .pickSink ∧ p.dumping = false ∨
      c.stage = .pickSink ∧ (c.step p).2.stage = .print p.sink c.draining ∨
      ∃ sink e rest, c.stage = .print sink (e :: rest) ∧
        (c.step p).2.stage = .print sink rest := by
  cases hs : c.stage with
  | choose =>
    by_cases hnil : c.draining = []
    · simp [step, hs, hnil, ConsumerStage.HandsOver] at h
    · cases hd : p.dumping with
      | true => exact .inl ⟨rfl, by simp [step, hs, hnil, hd], rfl⟩
      | false => exact .inr (.inl ⟨rfl, by simp [step, hs, hnil, hd], rfl⟩)
  | pickSink => exact .inr (.inr (.inl ⟨rfl, by simp [step, hs]⟩))
  | print sink rest =>
    cases rest with
    | nil => simp [step, hs, ConsumerStage.HandsOver] at h
    | cons e rest =>
      simp only [step, hs] at h ⊢
      split at h
      · exact h.elim
      · next hcalm => exact .inr (.inr (.inr ⟨sink, e, rest, rfl, by rw [if_neg hcalm]⟩))
  | decide =>
    simp only [step, hs, nextRound] at h
    split at h
    · exact h.elim
    · split at h <;> exact h.elim
  | top | awaitDump call | checkStop call | takeQueue call | idle call | finish call =>
    simp only [step, hs] at h
    split at h <;> exact h.elim
  | _ => simp [step, hs, ConsumerStage.HandsOver] at h

end Consumer

namespace Setting

variable {setting : Setting} {p : Pipeline} {c : Consumer}

/-- While a setting is in force, no consumer comes to miss it, and one that has
missed it leaves the queue alone. -/
theorem missed_of_step (h : setting.InForce p) (hmissed : setting.Missed (c.step p).2.stage) :
    setting.Missed c.stage ∧ (c.step p).1.buffer = p.buffer := by
  rcases Consumer.handsOver_of_step hmissed.handsOver with ⟨-, hstage, hdumping⟩ |
    ⟨-, hstage, hdumping⟩ | ⟨hs, hstage⟩ | ⟨sink, e, rest, hs, hstage⟩
  · rw [hstage, missed_dump] at hmissed
    subst hmissed
    cases hdumping.symm.trans h
  · rw [hstage, missed_pickSink] at hmissed
    subst hmissed
    cases hdumping.symm.trans h
  · refine ⟨?_, by simp [Consumer.step, hs]⟩
    rw [hstage, missed_print] at hmissed
    rw [hs, missed_pickSink]
    refine hmissed.resolve_right ?_
    rintro ⟨s, rfl, hne⟩
    exact hne h
  · refine ⟨?_, ?_⟩
    · rw [hstage, missed_print] at hmissed
      rwa [hs, missed_print]
    · simp only [Consumer.step, hs]
      split <;> rfl

/-- Entries leave as a setting in force says, unless the consumer has missed it. -/
theorem permits_of_mem_departures (h : setting.InForce p) (hmissed : ¬setting.Missed c.stage)
    {x : Entry × Departure} (hx : x ∈ c.departures p) : setting.Permits x.2 := by
  cases hs : c.stage with
  | dump =>
    rw [hs, missed_dump] at hmissed
    have hdump := Consumer.isDump_of_mem_departures hs hx
    simp only [Consumer.departures, hs] at hx
    have hd := DumpReport.of_mem_departures (List.of_mem_zip hx).2
    cases setting with
    | dumping b =>
      cases b with
      | true => exact hdump
      | false => exact (hmissed rfl).elim
    | target path cap => rcases hd with hd | hd | hd <;> rw [hd] <;> first | exact h | trivial
    | _ => rcases hd with hd | hd | hd <;> rw [hd] <;> trivial
  | print sink rest =>
    rw [hs, missed_print] at hmissed
    cases rest with
    | nil => simp [Consumer.departures, hs] at hx
    | cons e rest =>
      have hd : x.2 = .discarded ∨ x.2 = .printed sink := by
        simp only [Consumer.departures, hs] at hx
        split at hx
        · obtain ⟨e', -, rfl⟩ := List.mem_map.1 hx
          exact .inl rfl
        · exact .inr (List.mem_singleton.1 hx ▸ rfl)
      cases setting with
      | dumping b =>
        cases b with
        | true => exact (hmissed (.inl rfl)).elim
        | false => rcases hd with hd | hd <;> rw [hd] <;> rfl
      | sink s =>
        rcases hd with hd | hd <;> rw [hd]
        · trivial
        · exact by_contra fun hne => hmissed (.inr ⟨s, rfl, hne⟩)
      | _ => rcases hd with hd | hd <;> rw [hd] <;> trivial
  | _ => simp [Consumer.departures, hs] at hx

theorem inForce_step (h : setting.InForce p) : setting.InForce (c.step p).1 := by
  obtain ⟨-, -, -, hsink, -, hdumping, -⟩ := c.step_frame p
  cases setting with
  | dumping b => exact hdumping.trans h
  | sink s => exact hsink.trans h
  | target path cap =>
    have hpath : (c.step p).1.writer.path = p.writer.path := by
      cases hs : c.stage with
      | dump =>
        simp only [Consumer.step, hs, Consumer.dumpAll]
        exact p.writer.path_dump _ _
      | print sink rest =>
        cases rest with
        | nil => simp [Consumer.step, hs]
        | cons e rest =>
          simp only [Consumer.step, hs]
          split <;> rfl
      | flush sink =>
        simp only [Consumer.step, hs]
        split <;> rfl
      | _ => simp [Consumer.step, hs]
    exact hpath.trans h
  | _ => trivial

theorem missed_expire (h : setting.Missed (c.expire p).stage) : setting.Missed c.stage := by
  unfold Consumer.expire at h
  split at h
  · exact h.handsOver.elim
  · exact h.handsOver.elim
  · exact h

theorem inForce_of_task {t : Task} (h : setting.InForce p)
    (ht : ∀ setting', t = .store setting' → ¬setting'.Overrides setting) (i : Nat) :
    setting.InForce (t.step i p).pipeline := by
  apply Task.pipeline_cases (P := setting.InForce)
  case store =>
    intro setting' hstore
    by_contra hout
    exact ht setting' hstore ⟨p, h, hout⟩
  case onEvent =>
    intro name c _
    cases name <;> cases setting <;> exact h
  all_goals
    intros
    cases setting <;> exact h

end Setting

/-- Only another value for the same cell puts a setting out of force. -/
theorem Setting.overrides_cases {setting' setting : Setting} (h : setting'.Overrides setting) :
    (∃ b b', setting' = .dumping b' ∧ setting = .dumping b ∧ b' ≠ b) ∨
      (∃ path path' cap cap', setting' = .target path' cap' ∧ setting = .target path cap ∧
        path' ≠ path) ∨
      ∃ sink sink', setting' = .sink sink' ∧ setting = .sink sink ∧ sink' ≠ sink := by
  obtain ⟨p, hforce, hout⟩ := h
  cases setting with
  | dumping b =>
    cases setting' with
    | dumping b' => exact .inl ⟨b, b', rfl, rfl, hout⟩
    | _ => exact (hout hforce).elim
  | target path cap =>
    cases setting' with
    | target path' cap' => exact .inr (.inl ⟨path, path', cap, cap', rfl, rfl, hout⟩)
    | _ => exact (hout hforce).elim
  | sink k =>
    cases setting' with
    | sink k' => exact .inr (.inr ⟨k, k', rfl, rfl, hout⟩)
    | _ => exact (hout hforce).elim
  | _ => exact (hout trivial).elim

namespace Call

variable {call : Call}

theorem store_dumping {b : Bool} (h : .store (.dumping b) ∈ call.tasks) :
    b = false ↔ call = .stopDump := by
  cases call with
  | stopDump => simpa [tasks] using h
  | startDump path cap threshold interval => simp_all [tasks, startDumpTasks]
  | apply c =>
    simp only [tasks, applyTasks, switchFileTasks, startDumpTasks] at h
    split at h <;> simp_all
  | log r =>
    simp only [tasks] at h
    split at h <;> simp at h
  | _ => simp [tasks, switchFileTasks] at h

theorem store_target {path : Path} {cap : UInt64} (h : .store (.target path cap) ∈ call.tasks) :
    (∃ threshold interval, call = .startDump path cap threshold interval) ∨
      ∃ c : Config, call = .apply c ∧ c.dumpPath = path ∧ c.dumpSize = cap := by
  cases call with
  | startDump path' cap' threshold interval =>
    obtain ⟨rfl, rfl⟩ : path = path' ∧ cap = cap' := by simpa [tasks, startDumpTasks] using h
    exact .inl ⟨threshold, interval, rfl⟩
  | apply c =>
    simp only [tasks, applyTasks, switchFileTasks, startDumpTasks] at h
    split at h
    · obtain ⟨rfl, rfl⟩ : path = c.dumpPath ∧ cap = c.dumpSize := by simpa using h
      exact .inr ⟨c, rfl, rfl, rfl⟩
    · simp at h
  | log r =>
    simp only [tasks] at h
    split at h <;> simp at h
  | _ => simp [tasks, switchFileTasks] at h

theorem store_sink {s : Sink} (h : .store (.sink s) ∈ call.tasks) : call = .setSink s := by
  cases call with
  | setSink s' => simpa [tasks, eq_comm] using h
  | startDump path cap threshold interval => simp [tasks, startDumpTasks] at h
  | apply c =>
    simp only [tasks, applyTasks, switchFileTasks, startDumpTasks] at h
    split at h <;> simp at h
  | log r =>
    simp only [tasks] at h
    split at h <;> simp at h
  | _ => simp [tasks, switchFileTasks] at h

/-- What a call stores does not put out of force what it has stored. -/
theorem not_overrides {setting setting' : Setting} (h : .store setting ∈ call.tasks)
    (h' : .store setting' ∈ call.tasks) : ¬setting'.Overrides setting := by
  intro hover
  rcases Setting.overrides_cases hover with ⟨b, b', rfl, rfl, hne⟩ |
    ⟨path, path', cap, cap', rfl, rfl, hne⟩ | ⟨sink, sink', rfl, rfl, hne⟩
  · have := store_dumping h
    have := store_dumping h'
    cases b <;> cases b' <;> simp_all
  · rcases store_target h with ⟨threshold, interval, rfl⟩ | ⟨c, rfl, rfl, rfl⟩ <;>
      rcases store_target h' with ⟨threshold', interval', he⟩ | ⟨c', he, rfl, rfl⟩ <;> cases he <;>
        exact hne rfl
  · cases (store_sink h).symm.trans (store_sink h')
    exact hne rfl

end Call

namespace System

/-! ## Callers that change a setting -/

/-- No call is under way that puts the setting out of force. -/
def Unopposed (s : System) (setting : Setting) : Prop :=
  ∀ i setting', .store setting' ∈ (s.caller i).tasks → ¬setting'.Overrides setting

variable {s : System} {setting : Setting}

theorem inForce_next (h : setting.InForce s.pipeline) (hun : s.Unopposed setting) (m : Move) :
    setting.InForce (s.next m).pipeline := by
  apply next_cases (P := fun s' => setting.InForce s'.pipeline)
  case task =>
    intro i t rest ht
    refine Setting.inForce_of_task h (fun setting' hstore => ?_) i
    exact hun i setting' (by rw [ht, hstore]; exact List.mem_cons_self)
  case consumer =>
    intro j c _
    have hstep := Setting.inForce_step (c := c) h
    cases setting <;> exact hstep
  all_goals
    intros
    cases setting <;> exact h

theorem unopposed_next (h : s.Unopposed setting) {m : Move}
    (hm : ∀ i call, m = .begin i call → ∀ setting', .store setting' ∈ call.tasks →
      ¬setting'.Overrides setting) : (s.next m).Unopposed setting := by
  apply next_cases (P := fun s' => s'.Unopposed setting)
  case begin =>
    intro i call hbegin _
    apply forall_setCaller (P := fun _ c => ∀ setting', Task.store setting' ∈ c.tasks →
      ¬setting'.Overrides setting)
    · exact hm i call hbegin
    · exact fun j _ => h j
  case task =>
    intro i t rest ht
    apply forall_setCaller (P := fun _ c => ∀ setting', Task.store setting' ∈ c.tasks →
      ¬setting'.Overrides setting)
    · intro setting' hmem
      rcases List.mem_append.1 hmem with hnext | hrest
      · exact ((Task.of_mem_next hnext).1 setting' rfl).elim
      · exact h i setting' (ht ▸ List.mem_cons_of_mem _ hrest)
    · exact fun j _ => h j
  all_goals
    intros
    exact h

/-! ## Consumers that heed a setting -/

/-- The entries at the places from `n` on leave as a setting says: no consumer that
has missed it holds one of them, and those that have left did so. -/
structure Heeds (s : System) (setting : Setting) (n : Nat)
    (left : List (Entry × Departure)) : Prop where
  missed : ∀ c ∈ s.pipeline.consumers, setting.Missed c.stage →
    left.length + c.unhandled.length ≤ n
  permits : ∀ k x, n ≤ k → left[k]? = some x → setting.Permits x.2

theorem heeds_afterConsumer {n : Nat} {left : List (Entry × Departure)}
    (h : s.Heeds setting n left) (hforce : setting.InForce s.pipeline) (ho : s.Orderly)
    (hsound : ∀ c ∈ s.pipeline.consumers, c.Sound) {j : Nat} {c : Consumer}
    (hc : s.pipeline.consumers[j]? = some c) :
    (s.afterConsumer j c).Heeds setting n (left ++ c.departures s.pipeline) := by
  have hmem := List.mem_of_getElem? hc
  have hlen : (c.departures s.pipeline).length + (c.step s.pipeline).2.unhandled.length +
      (c.step s.pipeline).1.buffer.incoming.length =
        c.unhandled.length + s.pipeline.buffer.incoming.length := by
    simpa [Nat.add_assoc] using congrArg List.length ((hsound c hmem).step_departures s.pipeline)
  constructor
  · intro d hd hmissed
    obtain ⟨k, hk⟩ := List.getElem?_of_mem hd
    simp only [afterConsumer, Consumer.step_consumers] at hk
    rw [List.length_append]
    rcases getElem?_set_cases hc hk with ⟨rfl, rfl⟩ | ⟨hkj, hk⟩
    · obtain ⟨hbefore, hbuffer⟩ := Setting.missed_of_step hforce hmissed
      have hle := h.missed c hmem hbefore
      rw [hbuffer] at hlen
      omega
    · have hle := h.missed d (List.mem_of_getElem? hk) hmissed
      -- the other consumer has not ended, so this one has, and nothing leaves its hands
      have hended : c.stage = .ended :=
        by_contra fun hs => hkj (ho.index_eq hk hc (hmissed.handsOver.ne_ended) hs)
      have hnil : c.departures s.pipeline = [] := by simp [Consumer.departures, hended]
      simpa [hnil] using hle
  · intro k x hk hx
    rw [List.getElem?_append] at hx
    split at hx
    · exact h.permits k x hk hx
    · next hge =>
      -- the entry was in the hands of the consumer, which has thus not missed the setting
      refine Setting.permits_of_mem_departures hforce (fun hmissed => ?_)
        (List.mem_of_getElem? hx)
      have hle := h.missed c hmem hmissed
      have hlt := (List.getElem?_eq_some_iff.1 hx).1
      have hprefix := (c.departures_prefix s.pipeline).length_le
      rw [List.length_map] at hprefix
      omega

theorem heeds_next {n : Nat} {left : List (Entry × Departure)}
    (h : s.Heeds setting n left) (hforce : setting.InForce s.pipeline) (ho : s.Orderly)
    (hsound : ∀ c ∈ s.pipeline.consumers, c.Sound) (m : Move) :
    (s.next m).Heeds setting n (left ++ s.departedOf m) := by
  have hsame : s.Heeds setting n (left ++ []) := by rwa [List.append_nil]
  apply next_entries_cases (P := fun s' _ gone => s'.Heeds setting n (left ++ gone))
  case task =>
    intro i t rest _
    refine ⟨fun c hc hmissed => ?_, hsame.permits⟩
    rcases Task.step_consumers i s.pipeline t with he | ⟨-, he⟩ <;>
      simp only [afterTask, setCaller_pipeline, he] at hc
    · exact hsame.missed c hc hmissed
    · rcases List.mem_append.1 hc with hc | hc
      · exact hsame.missed c hc hmissed
      · obtain rfl := List.mem_singleton.1 hc
        exact hmissed.handsOver.elim
  case consumer =>
    intro j c hc
    exact heeds_afterConsumer h hforce ho hsound hc
  case timer =>
    intro j c hc
    refine ⟨fun d hd hmissed => ?_, hsame.permits⟩
    rcases List.mem_or_eq_of_mem_set hd with hd | rfl
    · exact hsame.missed d hd hmissed
    · rw [Consumer.unhandled_expire]
      exact hsame.missed c (List.mem_of_getElem? hc) (Setting.missed_expire hmissed)
  all_goals
    intros
    exact ⟨hsame.missed, hsame.permits⟩

/-- While a setting stays in force, entries that no consumer has missed it for leave
as it says. -/
theorem heeds_run {world : World} {front after : List Move} {n : Nat}
    (hforce : ∀ pre, pre <+: after → setting.InForce (run world (front ++ pre)).pipeline)
    (h : (run world front).Heeds setting n (departed world front)) :
    (run world (front ++ after)).Heeds setting n (departed world (front ++ after)) := by
  induction after using List.reverseRecOn with
  | nil => rwa [List.append_nil]
  | append_singleton after m ih =>
    have hbefore := ih fun pre hpre => hforce pre (hpre.trans (List.prefix_append _ _))
    rw [← List.append_assoc, run_concat, departed_concat]
    exact heeds_next hbefore (hforce after (List.prefix_append _ _)) (orderly_run world _)
      (sound_run world _) m

/-- If no call that puts a setting out of force is under way, and none begins, none is
under way later. -/
theorem unopposed_run {world : World} {front after : List Move}
    (hun : (run world front).Unopposed setting)
    (hafter : ∀ i call, .begin i call ∈ after → ∀ setting', .store setting' ∈ call.tasks →
      ¬setting'.Overrides setting) :
    (run world (front ++ after)).Unopposed setting := by
  induction after using List.reverseRecOn with
  | nil => rwa [List.append_nil]
  | append_singleton after m ih =>
    rw [← List.append_assoc, run_concat]
    refine unopposed_next (ih fun i call hmem => hafter i call (List.mem_append_left _ hmem)) ?_
    rintro i call rfl
    exact hafter i call (by simp)

theorem inForce_run {world : World} {front after : List Move}
    (hforce : setting.InForce (run world front).pipeline)
    (hun : (run world front).Unopposed setting)
    (hafter : ∀ i call, .begin i call ∈ after → ∀ setting', .store setting' ∈ call.tasks →
      ¬setting'.Overrides setting) :
    setting.InForce (run world (front ++ after)).pipeline := by
  induction after using List.reverseRecOn with
  | nil => rwa [List.append_nil]
  | append_singleton after m ih =>
    have hbefore : ∀ i call, .begin i call ∈ after → ∀ setting', .store setting' ∈ call.tasks →
        ¬setting'.Overrides setting := fun i call hmem =>
      hafter i call (List.mem_append_left _ hmem)
    rw [← List.append_assoc, run_concat]
    exact inForce_next (ih hbefore) (unopposed_run hun hbefore) m

theorem heeds_of_taken {world : World} {front : List Move} {n : Nat}
    (hn : (departed world front).length + (run world front).pipeline.inHand.length ≤ n) :
    (run world front).Heeds setting n (departed world front) := by
  constructor
  · intro c hc _
    obtain ⟨first, others, hsplit⟩ := List.append_of_mem hc
    simp only [Pipeline.inHand, hsplit, List.flatMap_append, List.flatMap_cons,
      List.length_append] at hn
    omega
  · intro k x hk hx
    have hlt := (List.getElem?_eq_some_iff.1 hx).1
    omega

theorem length_accepted (world : World) (ms : List Move) :
    (ledger world ms).accepted.length = (departed world ms).length +
      (run world ms).pipeline.inHand.length +
        (run world ms).pipeline.buffer.incoming.length := by
  simpa [Nat.add_assoc] using congrArg List.length (conserved_run world ms)

/-! ## A call that changes settings -/

/-- A run in which a caller makes a call and the call returns, in three parts: the
moves before the call, those until after its return, and those that follow. -/
structure Reconfigured (world : World) (i : Nat) (call : Call)
    (before during after : List Move) : Prop where
  idle : ((run world before).caller i).tasks = []
  returned : ((run world (before ++ .begin i call :: during)).caller i).tasks = []
  /-- No further call that changes the same setting begins. -/
  later : ∀ j call', .begin j call' ∈ during ++ after → ∀ setting setting',
    .store setting ∈ call.tasks → .store setting' ∈ call'.tasks → ¬setting'.Overrides setting

/-- Calls under way that change a setting to another value than this call do so before it
does. -/
def Prevails (world : World) (i : Nat) (call : Call) (before during : List Move) : Prop :=
  ∀ setting, .store setting ∈ call.tasks → ∀ pre, pre <+: during →
    .store setting ∉ ((run world (before ++ .begin i call :: pre)).caller i).tasks →
    (run world (before ++ .begin i call :: pre)).Unopposed setting

theorem pending_next {i : Nat} (h : .store setting ∈ (s.caller i).tasks) (m : Move) :
    .store setting ∈ ((s.next m).caller i).tasks ∨ setting.InForce (s.next m).pipeline := by
  by_cases hm : m = .act (.caller i)
  · subst hm
    cases ht : (s.caller i).tasks with
    | nil =>
      rw [ht] at h
      cases h
    | cons t rest =>
      rw [next, step_caller_of_cons ht]
      rw [ht] at h
      rcases List.mem_cons.1 h with rfl | hrest
      · exact .inr (setting.inForce_apply s.pipeline)
      · exact .inl (by simp [afterTask, hrest])
  · left
    rwa [next_caller_of_ne (List.ne_nil_of_mem h) hm]

theorem Reconfigured.inForce {world : World} {i : Nat} {call : Call}
    {before during after : List Move} (h : Reconfigured world i call before during after)
    (hprevails : Prevails world i call before during) (hcall : .store setting ∈ call.tasks) :
    setting.InForce (run world (before ++ .begin i call :: during)).pipeline ∧
      (run world (before ++ .begin i call :: during)).Unopposed setting := by
  -- at every point of the call it has yet to store the setting, or has stored it
  have hpoint : ∀ pre, pre <+: during →
      .store setting ∈ ((run world (before ++ .begin i call :: pre)).caller i).tasks ∨
        setting.InForce (run world (before ++ .begin i call :: pre)).pipeline ∧
          (run world (before ++ .begin i call :: pre)).Unopposed setting := by
    intro pre hpre
    induction pre using List.reverseRecOn with
    | nil =>
      left
      rw [run_concat, next, begin_of_nil h.idle, setCaller_caller_self]
      exact hcall
    | append_singleton pre m ih =>
      have hm : m ∈ during := hpre.subset (by simp)
      have hlast := hprevails setting hcall (pre ++ [m]) hpre
      rw [← List.cons_append, ← List.append_assoc, run_concat] at hlast ⊢
      rcases ih ((List.prefix_append _ _).trans hpre) with hpending | ⟨hforce, hun⟩
      · by_cases hstill :
          .store setting ∈ (((run world (before ++ .begin i call :: pre)).next m).caller i).tasks
        · exact .inl hstill
        · exact .inr ⟨(pending_next hpending m).resolve_left hstill, hlast hstill⟩
      · refine .inr ⟨inForce_next hforce hun m, unopposed_next hun ?_⟩
        rintro j call' rfl setting' hsetting'
        exact h.later j call' (List.mem_append_left _ hm) setting setting' hcall hsetting'
  rcases hpoint during (List.prefix_refl _) with hpending | hdone
  · rw [h.returned] at hpending
    cases hpending
  · exact hdone

/-- A call prevails if no call under way changes the same setting when it begins. -/
theorem Reconfigured.prevails_of_alone {world : World} {i : Nat} {call : Call}
    {before during after : List Move} (h : Reconfigured world i call before during after)
    (alone : ∀ setting, .store setting ∈ call.tasks → (run world before).Unopposed setting) :
    Prevails world i call before during := by
  intro setting hcall pre hpre _
  refine unopposed_run (alone setting hcall) fun j call' hmem setting' hcall' => ?_
  rcases List.mem_cons.1 hmem with hbegin | hmem
  · cases hbegin
    exact Call.not_overrides hcall hcall'
  · exact h.later j call' (List.mem_append_left _ (hpre.subset hmem)) setting setting' hcall hcall'

/-- A call that has returned governs all entries accepted later, if calls under way that change
its settings have done so before it, and no further call changes them: after the end of dumping
they are printed, unless a sink panics; after its beginning they go to the named file or to the
fallback file, or are lost; and after a change of the sink they are printed by no other. The
lines, the files and the count of dropped entries show it. -/
theorem reconfiguration_takes_effect {world : World} {i : Nat} {call : Call}
    {before during after : List Move} (h : Reconfigured world i call before during after)
    (hprevails : Prevails world i call before during) :
    let front := before ++ .begin i call :: during
    let s := run world (front ++ after)
    let left := departed world (front ++ after)
    (ledger world (front ++ after)).accepted =
        left.map Prod.fst ++ s.pipeline.inHand ++ s.pipeline.buffer.incoming ∧
      Shows world (front ++ after) ∧
      ∀ n e d, (ledger world front).accepted.length ≤ n → left[n]? = some (e, d) →
        (call = .stopDump → (∃ sink, d = .printed sink) ∨ d = .discarded ∧ ¬s.pipeline.Calm) ∧
        (∀ path cap threshold interval, call = .startDump path cap threshold interval →
          d = .written path ∨ (∃ path', d = .spilled path') ∨ d = .lost) ∧
        ∀ sink, call = .setSink sink → ∀ sink', d = .printed sink' → sink' = sink := by
  intro front s left
  have hpermits : ∀ setting, .store setting ∈ call.tasks → ∀ n e d,
      (ledger world front).accepted.length ≤ n → left[n]? = some (e, d) → setting.Permits d := by
    intro setting hcall n e d hn hd
    obtain ⟨hforce, hun⟩ := h.inForce hprevails hcall
    have hlater : ∀ pre, pre <+: after → setting.InForce (run world (front ++ pre)).pipeline := by
      intro pre hpre
      refine inForce_run hforce hun fun j call' hmem setting' hcall' => ?_
      exact h.later j call' (List.mem_append_right _ (hpre.subset hmem)) setting setting' hcall
        hcall'
    have htaken : (departed world front).length + (run world front).pipeline.inHand.length ≤
        (ledger world front).accepted.length := by
      rw [length_accepted]
      omega
    exact (heeds_run hlater (heeds_of_taken htaken)).permits n (e, d) hn hd
  refine ⟨conserved_run world _, shows_run world _, fun n e d hn hd => ⟨?_, ?_, ?_⟩⟩
  · rintro rfl
    have hprinted : d.isDump = false := hpermits (.dumping false) (by simp [Call.tasks]) n e d hn hd
    cases d with
    | printed sink => exact .inl ⟨sink, rfl⟩
    | discarded =>
      exact .inr ⟨rfl, fun hcalm => not_discarded_of_calm world _ hcalm _
        (List.mem_of_getElem? hd) rfl⟩
    | written path | spilled path | lost => cases hprinted
  · rintro path cap threshold interval rfl
    have hdump : d.isDump = true :=
      hpermits (.dumping true) (by simp [Call.tasks, Call.startDumpTasks]) n e d hn hd
    have hpath :=
      hpermits (.target path cap) (by simp [Call.tasks, Call.startDumpTasks]) n e d hn hd
    cases d with
    | written path' =>
      obtain rfl : path' = path := hpath
      exact .inl rfl
    | spilled path' => exact .inr (.inl ⟨path', rfl⟩)
    | lost => exact .inr (.inr rfl)
    | printed sink | discarded => cases hdump
  · rintro sink rfl sink' rfl
    exact hpermits (.sink sink) (by simp [Call.tasks]) n e _ hn hd

/-- A consumer waits for something to print when dumping is turned on; the entry that
is logged then goes to the dump file. -/
theorem reconfiguration_takes_effect_of_dumped :
    let world := World.calm ⟨[], []⟩ fun _ => 0
    let call : Call := .startDump ⟨"app.log"⟩ 33554432 1000 10
    let before : List Move := Move.begin 1 .start :: List.replicate 20 (Move.act (.caller 1)) ++
      List.replicate 12 (Move.act (.consumer 0))
    let during : List Move := List.replicate 8 (Move.act (.caller 0))
    let after : List Move := Move.begin 2 (.log ⟨.info, "t", [], ⟨"f", 1⟩⟩) ::
      List.replicate 10 (Move.act (.caller 2)) ++ Move.act (.timer 0) ::
      List.replicate 7 (Move.act (.consumer 0)) ++ Move.act (.timer 0) ::
      List.replicate 9 (Move.act (.consumer 0))
    let front := before ++ Move.begin 0 call :: during
    Reconfigured world 0 call before during after ∧ Prevails world 0 call before during ∧
      (ledger world front).accepted.length = 0 ∧
      ∃ x, (departed world (front ++ after))[0]? = some x ∧ x.1.tag = "t" ∧
        (x.2 = .written ⟨"app.log"⟩ ∨ (∃ path, x.2 = .spilled path) ∨ x.2 = .lost) := by
  intro world call before during after front
  have halone : ∀ setting, .store setting ∈ call.tasks →
      (run world before).Unopposed setting := by
    intro setting _ i setting' hmem
    -- only one caller has made a call, and it has returned
    have hi := mem_callersOf world before i (List.ne_nil_of_mem hmem)
    obtain rfl : i = 1 := by simpa [callersOf, before] using hi
    have hnil : ((run world before).caller 1).tasks = [] :=
      List.isEmpty_iff.1 (by decide +kernel)
    rw [hnil] at hmem
    cases hmem
  have hlater : ∀ j call', .begin j call' ∈ during ++ after → ∀ setting setting',
      .store setting ∈ call.tasks → .store setting' ∈ call'.tasks →
        ¬setting'.Overrides setting := by
    intro j call' hmem setting setting' _ hcall'
    obtain ⟨rfl, rfl⟩ : j = 2 ∧ call' = .log ⟨.info, "t", [], ⟨"f", 1⟩⟩ := by
      simpa [during, after] using hmem
    simp [Call.tasks] at hcall'
  have hrun : Reconfigured world 0 call before during after :=
    ⟨List.isEmpty_iff.1 (by decide +kernel), List.isEmpty_iff.1 (by decide +kernel), hlater⟩
  have hprevails := hrun.prevails_of_alone halone
  have hnone : (ledger world front).accepted.length = 0 := by decide +kernel
  have htags : (departed world (front ++ after)).map (fun x => x.1.tag) = ["t"] := by
    decide +kernel
  obtain ⟨x, hleft, htag⟩ := List.map_eq_singleton_iff.1 htags
  have hx : (departed world (front ++ after))[0]? = some x := by rw [hleft]; rfl
  have heffect :=
    (reconfiguration_takes_effect hrun hprevails).2.2 0 x.1 x.2 (Nat.le_of_eq hnone) hx
  exact ⟨hrun, hprevails, hnone, x, hx, htag, heffect.2.1 _ _ _ _ rfl⟩

/-- Entries accepted after dumping has been turned off that are not printed, though no call
that has begun since changes a setting. Another caller was about to turn dumping on and has
done so then; and a sink panics. -/
theorem reconfiguration_overtaken :
    let world := World.calm ⟨[], []⟩ fun _ => 0
    let acts (n : Nat) (a : Actor) : List Move := List.replicate n (.act a)
    let during := acts 5 (.caller 0)
    let logged : List Move := .begin 2 (.log ⟨.info, "t", [], ⟨"f", 1⟩⟩) :: acts 10 (.caller 2)
    let overlapped : List Move := .begin 1 .start :: acts 20 (.caller 1) ++ acts 12 (.consumer 0) ++
      .begin 3 (.startDump ⟨"app.log"⟩ 33554432 1000 10) :: acts 6 (.caller 3)
    let dumped := acts 1 (.caller 3) ++ logged ++ .act (.timer 0) :: acts 7 (.consumer 0) ++
      .act (.timer 0) :: acts 9 (.consumer 0)
    let panicky : List Move := .begin 1 (.setSink ⟨.standardOutput, false, fun n => n == 0⟩) ::
      acts 1 (.caller 1) ++ .begin 1 .start :: acts 20 (.caller 1)
    let discarded := logged ++ acts 14 (.consumer 0)
    (Reconfigured world 0 .stopDump overlapped during dumped ∧
      (ledger world (overlapped ++ .begin 0 .stopDump :: during)).accepted.length = 0 ∧
      let ms := overlapped ++ .begin 0 .stopDump :: during ++ dumped
      (departed world ms).map (fun x => (x.1.tag, x.2.isDump)) = [("t", true)] ∧
        (run world ms).pipeline.printed.length = 0 ∧
        (run world ms).pipeline.world.disk.has ⟨"app.log"⟩ = true) ∧
    Reconfigured world 0 .stopDump panicky during discarded ∧
      (ledger world (panicky ++ .begin 0 .stopDump :: during)).accepted.length = 0 ∧
      let ms := panicky ++ .begin 0 .stopDump :: during ++ discarded
      (departed world ms).map (fun x => (x.1.tag, x.2.isDump)) = [("t", false)] ∧
        (run world ms).pipeline.printed.length = 0 := by
  intro world acts during logged overlapped dumped panicky discarded
  have hunset : ∀ setting, .store setting ∉ (Call.log ⟨.info, "t", [], ⟨"f", 1⟩⟩).tasks := by
    simp [Call.tasks]
  have hoverlapped : Reconfigured world 0 .stopDump overlapped during dumped := by
    refine ⟨List.isEmpty_iff.1 (by decide +kernel), List.isEmpty_iff.1 (by decide +kernel),
      fun j call' hmem _ setting' _ hcall' => ?_⟩
    obtain ⟨-, rfl⟩ : j = 2 ∧ call' = .log ⟨.info, "t", [], ⟨"f", 1⟩⟩ := by
      simpa [during, dumped, logged, acts] using hmem
    exact (hunset setting' hcall').elim
  have hpanicky : Reconfigured world 0 .stopDump panicky during discarded := by
    refine ⟨List.isEmpty_iff.1 (by decide +kernel), List.isEmpty_iff.1 (by decide +kernel),
      fun j call' hmem _ setting' _ hcall' => ?_⟩
    obtain ⟨-, rfl⟩ : j = 2 ∧ call' = .log ⟨.info, "t", [], ⟨"f", 1⟩⟩ := by
      simpa [during, discarded, logged, acts] using hmem
    exact (hunset setting' hcall').elim
  exact ⟨⟨hoverlapped, by decide +kernel, by decide +kernel, by decide +kernel, by decide +kernel⟩,
    hpanicky, by decide +kernel, by decide +kernel, by decide +kernel⟩

end System

end LogPipeline
