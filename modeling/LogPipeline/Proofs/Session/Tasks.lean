import LogPipeline.Proofs.FinalFlush
import LogPipeline.Proofs.Session.Settings
import LogPipeline.Session

/-!
# The tasks of the program

At each point the program does one kind of tasks (`Stage.Does`), and a step of one leads
to tasks of the same kind (`Stage.Does.next`). Only the tasks that log a line concern
entries, and there is never more than one of them at a time. It carries the request until
the filter has judged it, and then the request or its entry until the queue has accepted
or refused it (`Task.Carries`); `Task.Carries.step` says what one step does to it.
-/

namespace LogPipeline

open Sync

/-! ## Kinds of tasks -/

/-- A call on the queue that makes room. -/
def BufferCall.Reserves : BufferCall → Prop
  | .enter (.reserve _) a => a.budget = 0
  | .grow _ | .leave .reserved | .leave .overflow => True
  | _ => False

namespace Task

/-- A task that gives a setting. -/
def Configures : Task → Prop
  | .store _ => True
  | .onBuffer c _ => c.Reserves
  | _ => False

/-- A task that starts the pipeline. -/
def Starts : Task → Prop
  | .lockLifecycle | .unlockLifecycle | .checkStopped | .onEvent _ _ | .spawn => True
  | _ => False

/-- A task that logs a line; the debug switch is looked at for debug lines only. -/
def Logs : Task → Prop
  | .checkSwitch r => r.level = .debug
  | .checkLevel _ | .compose _ | .chooseMode _ | .onBuffer _ _ | .countDropped _
  | .checkDumping _ | .checkThreshold _ | .onEvent _ _ => True
  | _ => False

/-- A task that stops the pipeline. -/
def Stops : Task → Prop
  | .lockLifecycle | .unlockLifecycle | .takeWorker | .onEvent _ _ | .join _ => True
  | _ => False

/-- A call on the queue, as a task: it is replaced by what is left of it, or by what
follows. -/
theorem next_onBuffer (i : Nat) (p : Pipeline) (c : BufferCall) (stake : Nat) :
    (∃ reply, (c.step p.buffer).2 = .finished reply ∧
        (step i p (.onBuffer c stake)).next = afterBuffer stake reply) ∨
      (step i p (.onBuffer c stake)).next = [.onBuffer (c.step p.buffer).2 stake] := by
  simp only [step]
  cases hcall : (c.step p.buffer).2 with
  | finished reply => exact .inl ⟨reply, rfl, rfl⟩
  | _ => exact .inr rfl

end Task

/-- A call on the queue that makes room ends so. -/
theorem BufferCall.Reserves.step {c : BufferCall} (h : c.Reserves) (b : RecordBuffer) :
    (c.step b).2.Reserves ∨ ∃ reply, (c.step b).2 = .finished reply ∧
      ∀ stake, Task.afterBuffer stake reply = [] := by
  cases c with
  | enter op a =>
    cases op with
    | reserve more =>
      rcases SpinLock.attempt_of_budget_zero h b.lock with hacq | hagain
      · refine .inl ?_
        simp only [BufferCall.step, hacq, RecordBuffer.perform]
        split
        · trivial
        · split <;> trivial
      · refine .inl ?_
        simpa only [BufferCall.step, hagain] using h
    | _ => exact h.elim
  | grow needed => exact .inl trivial
  | leave reply => cases reply <;> first | exact h.elim | exact .inr ⟨_, rfl, fun _ => rfl⟩
  | _ => exact h.elim

/-- A call on the queue that appends nothing accepts and refuses nothing, and appends
nothing later. -/
theorem BufferCall.step_of_ne_append {c : BufferCall}
    (h : ∀ entries a, c ≠ .enter (.append entries) a) (b : RecordBuffer) :
    c.ledger b = .empty ∧ ∀ entries a, (c.step b).2 ≠ .enter (.append entries) a := by
  cases c with
  | enter op a =>
    cases op with
    | append entries => exact (h entries a rfl).elim
    | exchange | reserve =>
      refine ⟨rfl, ?_⟩
      simp only [BufferCall.step, RecordBuffer.perform]
      grind
  | _ => exact ⟨rfl, fun _ _ => BufferCall.noConfusion⟩

namespace Intake

/-- The tasks that the program does at a point. -/
def Stage.Does : Stage → Task → Prop
  | .configuring => Task.Configures
  | .starting => Task.Starts
  | .logging => Task.Logs
  | .stopping _ => Task.Stops
  | .awaiting | .exited _ => fun _ => False

/-- A task leads to tasks of its kind. -/
theorem Stage.Does.next {stage : Stage} {t : Task} (h : stage.Does t) (i : Nat) (p : Pipeline) :
    ∀ t' ∈ (t.step i p).next, stage.Does t' := by
  cases stage with
  | configuring =>
    cases t with
    | store s => simp [Task.step]
    | onBuffer c stake =>
      have hstep := BufferCall.Reserves.step h p.buffer
      rcases hstep with hres | ⟨reply, hreply, hnil⟩
      · rcases Task.next_onBuffer i p c stake with ⟨reply, hreply, -⟩ | hnext
        · rw [hreply] at hres
          exact hres.elim
        · rw [hnext]
          exact List.forall_mem_singleton.2 hres
      · have hnext : (Task.step i p (.onBuffer c stake)).next = Task.afterBuffer stake reply := by
          simp [Task.step, hreply, BufferCall.reply?]
        simp [hnext, hnil]
    | _ => exact h.elim
  | starting =>
    cases t with
    | lockLifecycle | checkStopped | onEvent =>
      simp only [Task.step]
      split <;> simp [Stage.Does, Task.Starts, Task.startTasks]
    | unlockLifecycle | spawn => simp [Task.step]
    | _ => exact h.elim
  | logging =>
    cases t with
    | checkSwitch r =>
      simp only [Task.step]
      split <;> simp [Stage.Does, Task.Logs]
    | checkLevel | checkDumping | checkThreshold | onEvent =>
      simp only [Task.step]
      split <;> simp [Stage.Does, Task.Logs]
    | compose | chooseMode | countDropped => simp [Task.step, Stage.Does, Task.Logs]
    | onBuffer c stake =>
      rcases Task.next_onBuffer i p c stake with ⟨reply, -, hnext⟩ | hnext <;> rw [hnext]
      · cases reply <;> simp [Task.afterBuffer, Stage.Does, Task.Logs]
      · simp [Stage.Does, Task.Logs]
    | _ => exact h.elim
  | stopping ending =>
    cases t with
    | lockLifecycle | takeWorker | onEvent | join =>
      simp only [Task.step]
      split <;> simp [Stage.Does, Task.Stops, Task.stopTasks]
    | unlockLifecycle => simp [Task.step]
    | _ => exact h.elim
  | awaiting | exited ending => exact h.elim

/-- A line is logged by one task after the other. -/
theorem length_next_of_logs {t : Task} (h : t.Logs) (i : Nat) (p : Pipeline) :
    (t.step i p).next.length ≤ 1 := by
  cases t with
  | checkLevel | checkDumping | checkThreshold | onEvent =>
    simp only [Task.step]
    split <;> simp
  | checkSwitch | compose | chooseMode | countDropped => simp [Task.step]
  | onBuffer c stake =>
    rcases Task.next_onBuffer i p c stake with ⟨reply, -, hnext⟩ | hnext <;> rw [hnext]
    · cases reply <;> simp [Task.afterBuffer]
    · simp
  | _ => exact h.elim

/-- The program stores settings at the first point only. -/
theorem Stage.Does.ne_store {stage : Stage} {t : Task} (h : stage.Does t)
    (hne : stage ≠ .configuring) (s : Setting) : t ≠ .store s := by
  rintro rfl
  cases stage <;> first | exact h.elim | exact (hne rfl).elim

end Intake

/-! ## Requests on their way -/

/-- The requests that have passed, of those judged. -/
def passing (verdicts : List (Request × Bool)) : List Request :=
  (verdicts.filter Prod.snd).map Prod.fst

theorem passing_append (vs vs' : List (Request × Bool)) :
    passing (vs ++ vs') = passing vs ++ passing vs' := by
  simp [passing]

/-- An entry that is made of a request under a configuration. -/
def Config.Records (c : Config) (r : Request) (e : Entry) : Prop :=
  ∃ time, e = if c.showCaller then (Entry.tagged time r.level r.tag r.args).withCaller r.site
    else Entry.tagged time r.level r.tag r.args

/-- What becomes of requests that are on their way and of those that pass meanwhile: all
but the last are settled, and the queue has accepted the entries of some, in order, and
refused the others. -/
def Config.Settles (c : Config) (owed : List Request) (verdicts : List (Request × Bool))
    (l : Ledger) (owed' : List Request) : Prop :=
  ∃ settled kept, owed ++ passing verdicts = settled ++ owed' ∧ kept.Sublist settled ∧
    List.Forall₂ c.Records kept l.accepted ∧ kept.length + l.refused = settled.length ∧
    (c.emitMode = .guaranteed → l.refused = 0)

namespace Config.Settles

variable {c : Config} {owed owed' owed'' : List Request} {vs vs' : List (Request × Bool)}
  {l l' : Ledger}

theorem of_silent (hvs : passing vs = []) (haccepted : l.accepted = []) (hrefused : l.refused = 0) :
    c.Settles owed vs l owed := by
  refine ⟨[], [], by simp [hvs], .slnil, ?_, by simp [hrefused], fun _ => hrefused⟩
  rw [haccepted]
  exact .nil

theorem trans (h : c.Settles owed vs l owed') (h' : c.Settles owed' vs' l' owed'') :
    c.Settles owed (vs ++ vs') (l ++ l') owed'' := by
  obtain ⟨settled, kept, hpassing, hsub, hrecords, hlength, hmode⟩ := h
  obtain ⟨settled', kept', hpassing', hsub', hrecords', hlength', hmode'⟩ := h'
  refine ⟨settled ++ settled', kept ++ kept', ?_, hsub.append hsub', ?_, ?_, fun hg => ?_⟩
  · rw [passing_append, ← List.append_assoc, hpassing, List.append_assoc, hpassing',
      List.append_assoc]
  · exact List.rel_append hrecords hrecords'
  · simp only [List.length_append, Ledger.refused_append]
    omega
  · rw [Ledger.refused_append, hmode hg, hmode' hg]

end Config.Settles

namespace Task

/-- The requests that a task is about to have judged. -/
def judges : Task → List Request
  | .checkSwitch r | .checkLevel r => [r]
  | _ => []

/-- The requests that have passed and that a task is about to give to the queue. -/
def Carries (c : Config) (owed : List Request) : Task → Prop
  | .compose r => owed = [r]
  | .chooseMode batch => List.Forall₂ c.Records owed batch
  | .onBuffer (.enter (.append entries) a) _ =>
    List.Forall₂ c.Records owed entries ∧ (c.emitMode = .guaranteed → a.budget = 0)
  | _ => owed = []

variable {c : Config} {owed : List Request} {t : Task} {p : Pipeline}

/-- A call on the queue that appends nothing carries nothing. -/
theorem carries_onBuffer {call : BufferCall} {stake : Nat}
    (h : ∀ entries a, call ≠ .enter (.append entries) a) :
    (Task.onBuffer call stake).Carries c owed ↔ owed = [] := by
  cases call with
  | enter op a =>
    cases op with
    | append entries => exact (h entries a rfl).elim
    | _ => exact .rfl
  | _ => exact .rfl

/-- A call that appends the entries of requests settles them when it is refused or has
appended the entries. -/
theorem Carries.step_append {entries : List Entry} {a : Acquisition} {stake : Nat}
    (h : (Task.onBuffer (.enter (.append entries) a) stake).Carries c owed) (b : RecordBuffer) :
    let call := BufferCall.enter (.append entries) a
    ∃ owed', c.Settles owed [] (call.ledger b) owed' ∧
      (Task.onBuffer (call.step b).2 stake).Carries c owed' ∧
      ∀ reply, (call.step b).2 = .finished reply → owed' = [] := by
  obtain ⟨hrecords, hbudget⟩ := h
  have hlength := hrecords.length_eq
  cases hattempt : b.lock.attempt a with
  | mk outcome lock =>
    cases outcome with
    | acquired =>
      refine ⟨[], ⟨owed, owed, by simp [passing], .refl _, ?_, ?_, ?_⟩, ?_, ?_⟩
      · simpa [BufferCall.ledger, hattempt] using hrecords
      · simp [BufferCall.ledger, hattempt, Ledger.empty]
      · simp [BufferCall.ledger, hattempt, Ledger.empty]
      · simp [BufferCall.step, hattempt, RecordBuffer.perform, Carries]
      · simp
    | refused =>
      refine ⟨[], ⟨owed, [], by simp [passing], List.nil_sublist _, ?_, ?_, fun hg => ?_⟩, ?_, ?_⟩
      · simp [BufferCall.ledger, hattempt, Ledger.empty]
      · simp [BufferCall.ledger, hattempt, hlength]
      · -- a caller that may try as often as it takes is not refused
        rcases SpinLock.attempt_of_budget_zero (hbudget hg) b.lock with hacq | hagain
        · cases hattempt.symm.trans hacq
        · cases hattempt.symm.trans hagain
      · simp [BufferCall.step, hattempt, Carries]
      · simp
    | again a' =>
      have hsame : a'.budget = a.budget :=
        SpinLock.attempt_again (by rw [hattempt])
      refine ⟨owed, .of_silent rfl ?_ ?_, ?_, ?_⟩
      · simp [BufferCall.ledger, hattempt, Ledger.empty]
      · simp [BufferCall.ledger, hattempt, Ledger.empty]
      · simpa [BufferCall.step, hattempt, Carries, hsame] using And.intro hrecords hbudget
      · simp [BufferCall.step, hattempt]

/-- A call on the queue settles the requests that it carries, or goes on with them. -/
theorem Carries.step_onBuffer {call : BufferCall} {stake : Nat}
    (h : (Task.onBuffer call stake).Carries c owed) (b : RecordBuffer) :
    ∃ owed', c.Settles owed [] (call.ledger b) owed' ∧
      (Task.onBuffer (call.step b).2 stake).Carries c owed' ∧
      ∀ reply, (call.step b).2 = .finished reply → owed' = [] := by
  by_cases happend : ∃ entries a, call = .enter (.append entries) a
  · obtain ⟨entries, a, rfl⟩ := happend
    exact h.step_append b
  · have hne : ∀ entries a, call ≠ .enter (.append entries) a :=
      fun entries a heq => happend ⟨entries, a, heq⟩
    obtain rfl := (carries_onBuffer hne).1 h
    obtain ⟨hledger, hstep⟩ := BufferCall.step_of_ne_append hne b
    refine ⟨[], .of_silent rfl ?_ ?_, (carries_onBuffer hstep).2 rfl, fun _ _ => rfl⟩ <;>
      rw [hledger] <;> rfl

/-- A task that logs a line goes on with the request that it is about to have judged or
that it carries. -/
theorem Carries.step (h : t.Carries c owed) (hlogs : t.Logs) (hset : p.settings = c.settings)
    (i : Nat) :
    ∃ owed', c.Settles owed (t.verdict p) (t.ledger p) owed' ∧
      (∀ t' ∈ (t.step i p).next, t'.Carries c owed') ∧ ((t.step i p).next = [] → owed' = []) := by
  have hmode : p.emitMode = c.emitMode := congrArg Settings.emitMode hset
  have hcaller : p.showCaller = c.showCaller := congrArg Settings.showCaller hset
  have hsilent : ∀ {ts : List Task}, t.verdict p = [] → (t.ledger p).accepted = [] →
      (t.ledger p).refused = 0 → (t.step i p).next = ts → (∀ t' ∈ ts, t'.Carries c owed) →
      (ts = [] → owed = []) → ∃ owed', c.Settles owed (t.verdict p) (t.ledger p) owed' ∧
        (∀ t' ∈ (t.step i p).next, t'.Carries c owed') ∧
        ((t.step i p).next = [] → owed' = []) := by
    rintro ts hverdict haccepted hrefused rfl hnext hnil
    exact ⟨owed, .of_silent (by rw [hverdict]; rfl) haccepted hrefused, hnext, hnil⟩
  cases t with
  | checkSwitch r =>
    obtain rfl : owed = [] := h
    cases hs : p.switchOn with
    | true =>
      refine ⟨[r], ⟨[], [], ?_, .slnil, .nil, rfl, fun _ => rfl⟩, ?_, ?_⟩
      · simp [verdict, hs, passing]
      · simp [Task.step, hs, Carries]
      · simp [Task.step]
    | false =>
      exact hsilent (by simp [verdict, hs]) rfl rfl rfl (by simp [Task.step, hs, Carries]) (by simp)
  | checkLevel r =>
    obtain rfl : owed = [] := h
    by_cases hl : p.level ≤ r.level
    · refine ⟨[r], ⟨[], [], ?_, .slnil, .nil, rfl, fun _ => rfl⟩, ?_, ?_⟩
      · simp [verdict, hl, passing]
      · simp [Task.step, hl, Carries]
      · simp [Task.step, hl]
    · refine ⟨[], .of_silent ?_ rfl rfl, ?_, fun _ => rfl⟩
      · simp [verdict, hl, passing]
      · simp [Task.step, hl]
  | compose r =>
    obtain rfl : owed = [r] := h
    refine hsilent rfl rfl rfl rfl ?_ (by simp [Task.step])
    have hrecords : c.Records r (entryOf p r) := ⟨p.world.localNow, by simp [entryOf, hcaller]⟩
    simpa [Task.step, Carries] using hrecords
  | chooseMode batch =>
    refine hsilent rfl rfl rfl rfl ?_ (by simp [Task.step])
    have hbudget : c.emitMode = .guaranteed → p.emitMode.attempts = 0 := fun hg => by
      rw [hmode, hg]
      rfl
    simpa [Task.step, BufferCall.append, Acquisition.start, Carries] using And.intro h hbudget
  | onBuffer call stake =>
    obtain ⟨owed', hsettles, hcarries, hfinished⟩ := h.step_onBuffer p.buffer
    refine ⟨owed', hsettles, ?_⟩
    rcases next_onBuffer i p call stake with ⟨reply, hreply, hnext⟩ | hnext <;> rw [hnext]
    · obtain rfl := hfinished reply hreply
      cases reply <;> simp [afterBuffer, Carries]
    · simpa using hcarries
  | countDropped | checkDumping | checkThreshold | onEvent =>
    obtain rfl : owed = [] := h
    refine hsilent rfl rfl rfl rfl ?_ fun _ => rfl
    simp only [Task.step]
    try split
    all_goals simp [Carries]
  | _ => exact hlogs.elim

/-- What a task has judged it was about to have judged; the rest is left to its next. -/
theorem judges_step (hlogs : t.Logs) (i : Nat) (p : Pipeline) :
    (t.verdict p).map Prod.fst ++ (t.step i p).next.flatMap judges = t.judges := by
  cases t with
  | checkSwitch r => cases hs : p.switchOn <;> simp [verdict, Task.step, judges, hs]
  | checkLevel r => by_cases hl : p.level ≤ r.level <;> simp [verdict, Task.step, judges, hl]
  | onBuffer call stake =>
    rcases next_onBuffer i p call stake with ⟨reply, -, hnext⟩ | hnext <;> rw [hnext]
    · cases reply <;> simp [verdict, judges, afterBuffer]
    · simp [verdict, judges]
  | checkDumping | checkThreshold | onEvent =>
    simp only [Task.step]
    split <;> simp [verdict, judges]
  | compose | chooseMode | countDropped => simp [Task.step, verdict, judges]
  | _ => exact hlogs.elim

end Task

namespace Intake

variable {c : Config} {stage : Stage} {t : Task} {rest tasks : List Task} {owed : List Request}

/-- Only tasks that log a line concern requests and entries. -/
theorem Stage.Does.silent (h : stage.Does t) (hne : stage ≠ .logging) (p : Pipeline) :
    t.verdict p = [] ∧ (t.ledger p).accepted = [] ∧ (t.ledger p).refused = 0 ∧ t.judges = [] ∧
      ∀ c owed, t.Carries c owed ↔ owed = [] := by
  cases stage with
  | configuring =>
    cases t with
    | store s => exact ⟨rfl, rfl, rfl, rfl, fun _ _ => .rfl⟩
    | onBuffer call stake =>
      cases call with
      | enter op a =>
        cases op with
        | reserve more => exact ⟨rfl, rfl, rfl, rfl, fun _ _ => .rfl⟩
        | _ => exact h.elim
      | _ => exact ⟨rfl, rfl, rfl, rfl, fun _ _ => .rfl⟩
    | _ => exact h.elim
  | starting | stopping ending =>
    cases t <;> first | exact h.elim | exact ⟨rfl, rfl, rfl, rfl, fun _ _ => .rfl⟩
  | logging => exact (hne rfl).elim
  | awaiting | exited ending => exact h.elim

/-- What the program has to do at a point, and the requests on their way. -/
structure Engaged (c : Config) (stage : Stage) (tasks : List Task) (owed : List Request) :
    Prop where
  does : ∀ t ∈ tasks, stage.Does t
  single : stage = .logging → tasks.length ≤ 1
  carries : ∀ t ∈ tasks, t.Carries c owed
  idle : tasks = [] → owed = []

theorem engaged_nil (c : Config) (stage : Stage) : Engaged c stage [] [] :=
  ⟨nofun, fun _ => Nat.zero_le 1, nofun, fun _ => rfl⟩

/-- The program goes on with what it has to do. -/
theorem Engaged.step (h : Engaged c stage (t :: rest) owed) {p : Pipeline}
    (hset : stage = .logging → p.settings = c.settings) (i : Nat) :
    ∃ owed', c.Settles owed (t.verdict p) (t.ledger p) owed' ∧
      Engaged c stage ((t.step i p).next ++ rest) owed' ∧
      (t.verdict p).map Prod.fst ++ ((t.step i p).next ++ rest).flatMap Task.judges =
        (t :: rest).flatMap Task.judges := by
  have ht := h.does t List.mem_cons_self
  have hcarries := h.carries t List.mem_cons_self
  have hdoes : ∀ t' ∈ (t.step i p).next ++ rest, stage.Does t' := by
    intro t' ht'
    rcases List.mem_append.1 ht' with hnext | hrest
    · exact ht.next i p t' hnext
    · exact h.does t' (List.mem_cons_of_mem t hrest)
  by_cases hlogging : stage = .logging
  · -- the task is the only one
    obtain rfl : rest = [] := by simpa using h.single hlogging
    subst hlogging
    obtain ⟨owed', hsettles, hnext, hidle⟩ := hcarries.step ht (hset rfl) i
    rw [List.append_nil] at hdoes ⊢
    refine ⟨owed', hsettles, ⟨hdoes, fun _ => length_next_of_logs ht i p, hnext, hidle⟩, ?_⟩
    rw [Task.judges_step ht]
    simp
  · obtain ⟨hverdict, haccepted, hrefused, hjudges, hiff⟩ := ht.silent hlogging p
    obtain rfl := (hiff c owed).1 hcarries
    refine ⟨[], .of_silent (by rw [hverdict]; rfl) haccepted hrefused,
      ⟨hdoes, fun hs => (hlogging hs).elim, fun t' ht' => ?_, fun _ => rfl⟩, ?_⟩
    · exact (((hdoes t' ht').silent hlogging p).2.2.2.2 c []).2 rfl
    · have hnil : (t.step i p).next.flatMap Task.judges = [] :=
        List.flatMap_eq_nil_iff.2 fun t' ht' =>
          ((hdoes t' (List.mem_append_left _ ht')).silent hlogging p).2.2.2.1
      simp [hverdict, hnil, hjudges]

/-! ## The consumer to be stopped -/

/-- Whether the pipeline has a consumer to be stopped, while the program has some tasks
to do at a point. -/
def Stage.Staffed (p : Pipeline) (tasks : List Task) : Stage → Prop
  | .configuring => p.worker = none ∧ p.consumers = []
  | .starting => p.worker.isSome ∨ .checkStopped ∈ tasks ∨ .spawn ∈ tasks
  | .awaiting | .logging => p.worker.isSome
  | .stopping _ => p.worker = none ∨ .takeWorker ∈ tasks
  | .exited _ => p.worker = none

/-- The program starts a consumer, keeps it and stops it. -/
theorem Stage.Staffed.step {p : Pipeline} (h : stage.Staffed p (t :: rest)) (ht : stage.Does t)
    (i : Nat) : stage.Staffed (t.step i p).pipeline ((t.step i p).next ++ rest) := by
  have hworker := Task.step_worker i p t
  have hconsumers := Task.step_consumers i p t
  cases stage with
  | configuring =>
    obtain ⟨hnone, hnil⟩ := h
    rcases hconsumers with he | ⟨rfl, -⟩
    · rcases hworker with rfl | hw | ⟨rfl, -⟩
      · exact ht.elim
      · exact ⟨hw.trans hnone, he.trans hnil⟩
      · exact ht.elim
    · exact ht.elim
  | starting =>
    rcases hworker with rfl | hw | ⟨rfl, -⟩
    · exact .inl rfl
    · by_cases hchecks : t = .checkStopped
      · subst hchecks
        simp only [Stage.Staffed, Task.step]
        split
        · next hsome => exact .inl hsome
        · exact .inr (.inr (by simp [Task.startTasks]))
      · by_cases hspawns : t = .spawn
        · subst hspawns
          exact .inl rfl
        · refine h.imp (fun hsome => hw ▸ hsome) (Or.imp (fun hmem => ?_) fun hmem => ?_)
          · exact List.mem_append_right _ ((List.mem_cons.1 hmem).resolve_left (Ne.symm hchecks))
          · exact List.mem_append_right _ ((List.mem_cons.1 hmem).resolve_left (Ne.symm hspawns))
    · exact ht.elim
  | logging =>
    rcases hworker with rfl | hw | ⟨rfl, -⟩
    · exact ht.elim
    · simp only [Stage.Staffed, hw]
      exact h
    · exact ht.elim
  | stopping ending =>
    rcases hworker with rfl | hw | ⟨-, hw⟩
    · exact ht.elim
    · by_cases htakes : t = .takeWorker
      · subst htakes
        simp only [Stage.Staffed, Task.step]
        split
        · exact .inl rfl
        · next hnone => exact .inl hnone
      · refine h.imp (fun hnone => hw.trans hnone) fun hmem => ?_
        exact List.mem_append_right _ ((List.mem_cons.1 hmem).resolve_left (Ne.symm htakes))
    · exact .inl hw
  | awaiting | exited ending => exact ht.elim

/-- The point at which the program has nothing to do says what it has left. -/
theorem Stage.Staffed.congr {p p' : Pipeline} (h : stage.Staffed p tasks)
    (hworker : p'.worker = p.worker) (hconsumers : p.consumers = [] → p'.consumers = []) :
    stage.Staffed p' tasks := by
  cases stage with
  | configuring => exact ⟨hworker.trans h.1, hconsumers h.2⟩
  | _ =>
    simp only [Stage.Staffed, hworker]
    exact h

end Intake

end LogPipeline
