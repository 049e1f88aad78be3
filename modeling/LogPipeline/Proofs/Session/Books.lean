import LogPipeline.Proofs.Session.Forwarding
import LogPipeline.Proofs.Session.Serving

/-!
# The books of a session

At each point of a session (`served_run`), the calls of the program are the application
of the configuration, the start, one call for each forwarded line, in order, and at last
the stop, and each has returned before the next begins; the requests that the filter has
judged are those of the forwarded lines; and what has been entered into the histories of
the run is as the configuration says. When the program has exited, the consumer has ended
and nothing is queued (`Served.flushed`).
-/

namespace LogPipeline.Intake

/-- The request that logs a line. -/
def lineRequest (line : String) : Request := ⟨guessLevel line, input.tag, [.text line], site⟩

theorem lineCall_eq (line : String) : lineCall line = .log (lineRequest line) := rfl

/-- The calls of a program that has come to a point and has forwarded some lines. -/
def Stage.calls (c : Config) (forwarded : List String) : Stage → List Call
  | .configuring => [.apply c]
  | .starting | .awaiting | .logging => .apply c :: .start :: forwarded.map lineCall
  | .stopping _ | .exited _ => .apply c :: .start :: forwarded.map lineCall ++ [.stop]

/-- Forwarding has ended. -/
def Stage.IsLast : Stage → Prop
  | .stopping _ | .exited _ => True
  | _ => False

variable {c : Config} {w : World} {stage : Stage} {forwarded : List String} {ms : List Move}

/-! ## Calls of the program -/

theorem engaged_apply (c : Config) : Engaged c .configuring (Call.apply c).tasks [] := by
  have hdoes : ∀ t ∈ (Call.apply c).tasks, Stage.Does .configuring t := by
    cases hdump : c.isDump <;>
      simp [Call.tasks, Call.applyTasks, Call.switchFileTasks, Call.startDumpTasks, hdump,
        Stage.Does, Task.Configures, BufferCall.reserve, BufferCall.Reserves,
        Sync.Acquisition.start]
  refine ⟨hdoes, fun hl => Stage.noConfusion hl, fun t ht => ?_, fun _ => rfl⟩
  exact (((hdoes t ht).silent (by simp) (.new (.calm ⟨[], []⟩ fun _ => 0))).2.2.2.2 c []).2 rfl

theorem engaged_start (c : Config) : Engaged c .starting Call.start.tasks [] := by
  refine ⟨?_, nofun, ?_, fun _ => rfl⟩ <;>
    simp [Call.tasks, Stage.Does, Task.Starts, Task.Carries]

theorem engaged_stop (c : Config) (ending : Ending) :
    Engaged c (.stopping ending) Call.stop.tasks [] := by
  refine ⟨?_, nofun, ?_, fun _ => rfl⟩ <;>
    simp [Call.tasks, Stage.Does, Task.Stops, Task.Carries]

theorem tasks_lineCall (line : String) :
    (lineCall line).tasks = [.checkSwitch (lineRequest line)] ∧
        (lineRequest line).level = .debug ∨
      (lineCall line).tasks = [.checkLevel (lineRequest line)] := by
  rw [lineCall_eq, Call.tasks]
  split
  · next hdebug => exact .inl ⟨rfl, hdebug⟩
  · exact .inr rfl

theorem engaged_lineCall (c : Config) (line : String) :
    Engaged c .logging (lineCall line).tasks [] := by
  rcases tasks_lineCall line with ⟨htasks, hdebug⟩ | htasks <;> rw [htasks]
  · refine ⟨?_, by simp, ?_, fun _ => rfl⟩
    · simpa [Stage.Does, Task.Logs] using hdebug
    · simp [Task.Carries]
  · refine ⟨?_, by simp, ?_, fun _ => rfl⟩ <;> simp [Stage.Does, Task.Logs, Task.Carries]

theorem judges_lineCall (line : String) :
    (lineCall line).tasks.flatMap Task.judges = [lineRequest line] := by
  rcases tasks_lineCall line with ⟨htasks, -⟩ | htasks <;> rw [htasks] <;> rfl

/-! ## Every point of a session -/

/-- What holds at a point of the program, when it has forwarded some lines, of the
pipeline and of the histories of its run. -/
structure Served (c : Config) (w : World) (stage : Stage) (forwarded : List String)
    (ms : List Move) (owed : List Request) : Prop where
  serving : Serving c stage (System.run w ms) owed
  booked : Booked c [] owed (System.judged w ms) (System.ledger w ms) (System.departed w ms)
    (System.dumps w ms)
  judged : (System.judged w ms).map Prod.fst ++
    ((System.run w ms).caller 0).tasks.flatMap Task.judges = forwarded.map lineRequest
  begun : System.begun w ms = (stage.calls c forwarded).map (0, ·)
  /-- There was a consumer to be stopped when forwarding ended, and no entry has been
  accepted since. -/
  ended : stage.IsLast → ∃ before after k, ms = before ++ after ∧
    (System.run w before).pipeline.worker = some k ∧
    (System.ledger w before).accepted = (System.ledger w ms).accepted

namespace Served

variable {owed : List Request}

theorem next (h : Served c w stage forwarded ms owed) {m : Move}
    (hm : ∀ i call, m ≠ .begin i call) :
    ∃ owed', Served c w stage forwarded (ms ++ [m]) owed' := by
  obtain ⟨owed', hserving, hbooked, hjudges, haccepted⟩ := h.serving.next hm
  refine ⟨owed', ?_, ?_, ?_, ?_, fun hlast => ?_⟩
  · rwa [System.run_concat]
  · rw [System.judged_concat, System.ledger_concat, System.departed_concat, System.dumps_concat]
    exact h.booked.trans hbooked
  · rw [System.judged_concat, System.run_concat, List.map_append, List.append_assoc, hjudges]
    exact h.judged
  · have hnone : (System.run w ms).begunOf m = [] := by
      cases m with
      | begin i call => exact (hm i call rfl).elim
      | _ => rfl
    rw [System.begun_concat, hnone, List.append_nil]
    exact h.begun
  · obtain ⟨before, after, k, hms, hk, hbefore⟩ := h.ended hlast
    have hne : stage ≠ .logging := by
      rintro rfl
      exact hlast
    refine ⟨before, after ++ [m], k, by rw [hms, List.append_assoc], hk, ?_⟩
    rw [System.ledger_concat, Ledger.accepted_append, haccepted hne, List.append_nil]
    exact hbefore

/-- The program begins a call. -/
theorem begin (h : Served c w stage forwarded ms owed)
    (hidle : ((System.run w ms).caller 0).tasks = []) {stage' : Stage}
    {forwarded' : List String} {call : Call} (hengaged : Engaged c stage' call.tasks [])
    (hstaffed : stage'.Staffed (System.run w ms).pipeline call.tasks)
    (hne : stage' ≠ .configuring) (hcall : call.ledger = .empty)
    (hforwarded : forwarded'.map lineRequest =
      forwarded.map lineRequest ++ call.tasks.flatMap Task.judges)
    (hbegun : stage'.calls c forwarded' = stage.calls c forwarded ++ [call])
    (hended : stage'.IsLast → (System.run w ms).pipeline.worker.isSome) :
    Served c w stage' forwarded' (ms ++ [.begin 0 call]) [] := by
  have howed : owed = [] := h.serving.engaged.idle hidle
  have hledger : (System.run w ms).ledgerOf (.begin 0 call) = .empty := by
    rw [System.ledgerOf, if_pos hidle, hcall]
  refine ⟨?_, ?_, ?_, ?_, fun hlast => ?_⟩
  · rw [System.run_concat]
    exact h.serving.begin hidle hengaged hstaffed hne
  · rw [System.judged_concat, System.ledger_concat, System.departed_concat, System.dumps_concat,
      hledger]
    exact h.booked.trans (howed ▸ booked_nothing c [])
  · have hbegin : ((System.run w ms).next (.begin 0 call)).caller 0 = .begin call := by
      rw [System.next, System.begin_of_nil hidle, System.setCaller_caller_self]
    have hjudged := h.judged
    rw [hidle] at hjudged
    rw [System.judged_concat, System.run_concat, hbegin, hforwarded, ← hjudged]
    simp [System.judgedOf, Caller.begin]
  · rw [System.begun_concat, h.begun, hbegun, List.map_append]
    simp [System.begunOf, hidle]
  · obtain ⟨k, hk⟩ := Option.isSome_iff_exists.1 (hended hlast)
    refine ⟨ms, [.begin 0 call], k, rfl, hk, ?_⟩
    rw [System.ledger_concat, hledger, Ledger.append_empty]

/-- The program goes on when no call of it is under way. -/
theorem pause (h : Served c w stage forwarded ms owed)
    (hidle : ((System.run w ms).caller 0).tasks = []) {stage' : Stage}
    (hstaffed : stage'.Staffed (System.run w ms).pipeline [])
    (hcalls : stage'.calls c forwarded = stage.calls c forwarded)
    (hlast : stage'.IsLast → stage.IsLast) : Served c w stage' forwarded ms [] := by
  have howed : owed = [] := h.serving.engaged.idle hidle
  subst howed
  exact ⟨h.serving.pause hidle hstaffed, h.booked, h.judged, hcalls ▸ h.begun,
    fun hl => h.ended (hlast hl)⟩

/-- The program has nothing to do while it waits for a line. -/
theorem idle_of_awaiting (h : Served c w .awaiting forwarded ms owed) :
    ((System.run w ms).caller 0).tasks = [] :=
  List.eq_nil_iff_forall_not_mem.2 fun t ht => h.serving.engaged.does t ht

end Served

theorem served_new (c : Config) (w : World) :
    Served c w .configuring [] [.begin 0 (.apply c)] [] where
  serving := by
    have hrun : System.run w [.begin 0 (.apply c)] =
        (System.new w).setCaller 0 (.begin (.apply c)) := rfl
    rw [hrun]
    refine ⟨fun i hi => ?_, engaged_apply c, c.foldl_set_applyTasks w, ⟨rfl, rfl⟩,
      fun k hk => (List.not_mem_nil hk).elim, Bool.noConfusion,
      fun x hx => (List.not_mem_nil hx).elim⟩
    rw [System.setCaller_caller_of_ne _ _ hi]
    rfl
  booked := booked_nothing c []
  judged := List.flatMap_eq_nil_iff.2 fun t ht =>
    (((engaged_apply c).does t ht).silent (by simp) (.new w)).2.2.2.1
  begun := rfl
  ended := False.elim

namespace Session

variable {lines : List (Option String)} {ends : Bool}

/-- What holds at each point of a session. -/
theorem served_run (ts : List Turn) :
    ∃ owed, Served c w (run c w lines ends ts).stage (run c w lines ends ts).forwarded
      (moves c w lines ends ts) owed := by
  induction ts using List.reverseRecOn with
  | nil => exact ⟨[], served_new c w⟩
  | append_singleton ts t ih =>
    obtain ⟨owed, h⟩ := ih
    have hnone := @forwarded_of_configuring c w lines ends ts
    have hsystem := @system_run c w lines ends ts
    have hidle : (run c w lines ends ts).isIdle = true →
        ((System.run w (moves c w lines ends ts)).caller 0).tasks = [] := fun hi => by
      rw [isIdle, hsystem] at hi
      exact List.isEmpty_iff.1 hi
    rw [run_concat, moves_concat]
    have hsame : ∃ owed, Served c w (run c w lines ends ts).stage
        (run c w lines ends ts).forwarded (moves c w lines ends ts ++ []) owed :=
      ⟨owed, by rwa [List.append_nil]⟩
    apply next_cases (P := fun s ms => ∃ owed, Served c w s.stage s.forwarded
      (moves c w lines ends ts ++ ms) owed)
    case nothing => exact hsame
    case reads | drops | readerEnds =>
      intros
      exact hsame
    case signal => exact hsame
    case starts =>
      intro hi hs
      rw [hs] at h
      refine ⟨[], h.begin (hidle hi) (engaged_start c) (.inr (.inl (by simp [Call.tasks])))
        (by simp) rfl (by simp [Call.tasks, Task.judges]) ?_ False.elim⟩
      simp [Stage.calls, hnone hs]
    case started =>
      intro hi hs
      rw [hs] at h
      have hworker := h.serving.staffed
      rw [hidle hi] at hworker
      refine ⟨[], ?_⟩
      rw [List.append_nil]
      exact h.pause (hidle hi) (by simpa [Stage.Staffed] using hworker) rfl False.elim
    case logs =>
      intro hs line rest _
      rw [hs] at h
      refine ⟨[], h.begin h.idle_of_awaiting (engaged_lineCall c line) h.serving.staffed (by simp)
        rfl ?_ ?_ False.elim⟩
      · simp [judges_lineCall]
      · simp [Stage.calls]
    case logged =>
      intro hi hs
      rw [hs] at h
      refine ⟨[], ?_⟩
      rw [List.append_nil]
      exact h.pause (hidle hi) h.serving.staffed rfl False.elim
    case stops =>
      intro hs ending _
      rw [hs] at h
      exact ⟨[], h.begin h.idle_of_awaiting (engaged_stop c ending)
        (.inr (by simp [Call.tasks])) (by simp) rfl (by simp [Call.tasks, Task.judges]) rfl
        fun _ => h.serving.staffed⟩
    case exits =>
      intro hi ending hs
      rw [hs] at h
      have hworker := h.serving.staffed
      rw [hidle hi] at hworker
      refine ⟨[], ?_⟩
      rw [List.append_nil]
      exact h.pause (hidle hi) (by simpa [Stage.Staffed] using hworker) rfl fun _ => trivial
    case actor =>
      intro a
      exact h.next fun _ _ => Move.noConfusion
    case outside =>
      intro w'
      exact h.next fun _ _ => Move.noConfusion

end Session

/-! ## After the exit -/

namespace Served

variable {ending : Ending} {owed : List Request}

theorem calm (h : Served c w stage forwarded ms owed) : (System.run w ms).pipeline.Calm :=
  fun k hk => (h.serving.suits k hk).2

theorem tasks_of_exited (h : Served c w (.exited ending) forwarded ms owed) :
    ((System.run w ms).caller 0).tasks = [] :=
  List.eq_nil_iff_forall_not_mem.2 fun t ht => h.serving.engaged.does t ht

/-- All callers are idle. -/
theorem idle_of_exited (h : Served c w (.exited ending) forwarded ms owed) (i : Nat) :
    ((System.run w ms).caller i).tasks = [] := by
  by_cases hi : i = 0
  · rw [hi]
    exact h.tasks_of_exited
  · exact h.serving.sole i hi

/-- All consumers have ended. -/
theorem allEnded (h : Served c w (.exited ending) forwarded ms owed) :
    (System.run w ms).pipeline.AllEnded := by
  have ho := System.orderly_run w ms
  have hfree : (System.run w ms).pipeline.lifecycle = none := by
    cases hlock : (System.run w ms).pipeline.lifecycle with
    | none => rfl
    | some i => exact (ho.lifecycle_ne_of_nil (h.idle_of_exited i) hlock).elim
  have hworker : (System.run w ms).pipeline.worker = none := h.serving.staffed
  have hsettled := ho.settled hfree
  simpa only [Pipeline.Settled, hworker] using hsettled

/-- Everything accepted has been handed on, and nothing is queued. -/
theorem flushed (h : Served c w (.exited ending) forwarded ms owed) :
    (System.ledger w ms).accepted = (System.departed w ms).map Prod.fst ∧
      (System.run w ms).pipeline.buffer.incoming = [] := by
  obtain ⟨before, after, k, hms, hk, haccepted⟩ := h.ended trivial
  have hunhandled : ∀ d ∈ (System.run w ms).pipeline.consumers, d.unhandled = [] := fun d hd =>
    Consumer.unhandled_of_ended (System.sound_run w ms d hd) (h.allEnded d hd)
  have hbalanced := System.balanced_run w ms h.calm
  rw [System.Balanced, System.Conserved, Pipeline.inHand, List.flatMap_eq_nil_iff.2 hunhandled,
    List.append_nil] at hbalanced
  -- the consumer that the stop has taken had taken the queue before
  obtain ⟨d, hd⟩ : ∃ d, (System.run w ms).pipeline.consumers[k]? = some d := by
    have hsettled := (System.orderly_run w before).settled_of_worker hk
    simp only [Pipeline.Settled, hk] at hsettled
    rw [hms]
    exact System.consumer_run (hsettled.1.1 ▸ Nat.lt_succ_self k) after
  have hcalm := h.calm
  rw [hms] at hcalm
  have hflushed := System.flushed_run w before after hk hcalm
  rw [← hms] at hflushed
  have hprefix := hflushed d hd (by
    simp [Consumer.Flushing, h.allEnded d (List.mem_of_getElem? hd)])
  rw [hunhandled d (List.mem_of_getElem? hd), List.append_nil, haccepted] at hprefix
  have hnil : (System.run w ms).pipeline.buffer.incoming = [] := by
    have hle := hprefix.length_le
    rw [hbalanced, List.length_append] at hle
    exact List.length_eq_zero_iff.1 (by omega)
  rw [System.map_fst_departed_of_calm w ms h.calm]
  exact ⟨by rwa [hnil, List.append_nil] at hbalanced, hnil⟩

end Served

end LogPipeline.Intake
