import LogPipeline.Proofs.Ledger.Departures

/-!
# The ledger of every run

Whatever callers, consumers and the world do, in whatever order: the accepted
entries are those that have left, then those in the hands of a consumer, then those
in the queue (`conserved_run`); unless a sink has panicked, those that have left are
those handed on (`balanced_run`). What passed the filter is accepted, refused or on
its way, and what is counted as dropped is what was refused or lost (`counted_run`).
-/

namespace LogPipeline

open Sync

/-- No sink has panicked. -/
def Pipeline.Calm (p : Pipeline) : Prop := ∀ c ∈ p.consumers, c.panicked = false

namespace System

/-- What a move can do, what it enters into the ledger, and which entries leave. -/
theorem next_entries_cases {P : System → Ledger → List (Entry × Departure) → Prop} (s : System)
    (m : Move) (nothing : P s .empty [])
    (begin : ∀ i call, m = .begin i call → (s.caller i).tasks = [] →
      P (s.setCaller i (.begin call)) call.ledger [])
    (task : ∀ i t rest, (s.caller i).tasks = t :: rest →
      P (s.afterTask i t rest) (t.ledger s.pipeline) [])
    (consumer : ∀ j c, s.pipeline.consumers[j]? = some c →
      P (s.afterConsumer j c) (c.ledger s.pipeline) (c.departures s.pipeline))
    (timer : ∀ j c, s.pipeline.consumers[j]? = some c → P (s.afterTimer j c) .empty [])
    (outside : ∀ w, P { s with pipeline := { s.pipeline with world := w } } .empty []) :
    P (s.next m) (s.ledgerOf m) (s.departedOf m) := by
  match m with
  | .begin i call =>
    simp only [next, System.begin, ledgerOf, departedOf]
    by_cases h : (s.caller i).tasks = []
    · rw [if_pos (by simp [h]), if_pos h]
      exact begin i call rfl h
    · rw [if_neg (by simp [h]), if_neg h]
      exact nothing
  | .act (.caller i) =>
    cases h : (s.caller i).tasks with
    | nil => simpa [next, step_caller_of_nil h, ledgerOf, departedOf, h] using nothing
    | cons t rest =>
      simpa [next, step_caller_of_cons h, ledgerOf, departedOf, h] using task i t rest h
  | .act (.consumer j) =>
    cases h : s.pipeline.consumers[j]? with
    | none =>
      simpa [next, step, Pipeline.stepConsumer, ledgerOf, departedOf, h] using nothing
    | some c =>
      simpa [next, step_consumer_of_some h, ledgerOf, departedOf, h] using consumer j c h
  | .act (.timer j) =>
    cases h : s.pipeline.consumers[j]? with
    | none =>
      simpa [next, step, Pipeline.expireConsumer, ledgerOf, departedOf, h] using nothing
    | some c => simpa [next, step_timer_of_some h, ledgerOf, departedOf] using timer j c h
  | .outside w => exact outside w

/-- What a move can do, and what it enters into the ledger. -/
theorem next_ledger_cases {P : System → Ledger → Prop} (s : System) (m : Move)
    (nothing : P s .empty)
    (begin : ∀ i call, m = .begin i call → (s.caller i).tasks = [] →
      P (s.setCaller i (.begin call)) call.ledger)
    (task : ∀ i t rest, (s.caller i).tasks = t :: rest →
      P (s.afterTask i t rest) (t.ledger s.pipeline))
    (consumer : ∀ j c, s.pipeline.consumers[j]? = some c →
      P (s.afterConsumer j c) (c.ledger s.pipeline))
    (timer : ∀ j c, s.pipeline.consumers[j]? = some c → P (s.afterTimer j c) .empty)
    (outside : ∀ w, P { s with pipeline := { s.pipeline with world := w } } .empty) :
    P (s.next m) (s.ledgerOf m) :=
  next_entries_cases (P := fun s l _ => P s l) s m nothing begin task consumer timer outside

/-- The call on the queue that a caller is at, if any, is one of a caller. -/
theorem Orderly.posts {s : System} (h : s.Orderly) {i : Nat} {t : Task} {rest : List Task}
    (ht : (s.caller i).tasks = t :: rest) : t.Posts := by
  cases t with
  | onBuffer c stake =>
    by_cases hord : (Task.onBuffer c stake).Ordinary
    · exact hord
    · obtain ⟨e, he, -⟩ := h.errand_of_task ht hord (by simp)
      cases e <;> simp [Errand.tasks] at he
  | _ => trivial

/-! ## Panics -/

/-- A sink that has panicked is remembered. -/
theorem calm_of_next {s : System} {m : Move} (h : (s.next m).pipeline.Calm) :
    s.pipeline.Calm := by
  intro c hc
  obtain ⟨k, hk⟩ := List.getElem?_of_mem hc
  obtain ⟨d, hd, hcases⟩ := consumer_next hk m
  have hcalm := h d (List.mem_of_getElem? hd)
  rcases hcases with rfl | rfl | rfl
  · exact hcalm
  · exact Consumer.panicked_of_step hcalm
  · rwa [Consumer.panicked_expire] at hcalm

/-- A consumer that takes a step has not panicked if nobody has afterwards. -/
theorem calm_step {s : System} {j : Nat} {c : Consumer}
    (hc : s.pipeline.consumers[j]? = some c) (h : (s.afterConsumer j c).pipeline.Calm) :
    (c.step s.pipeline).2.panicked = false := by
  obtain ⟨hlt, -⟩ := List.getElem?_eq_some_iff.1 hc
  exact h _ (List.mem_of_getElem? (i := j) (by simp [afterConsumer, hlt]))

/-! ## Entries -/

/-- If only one element of a list contributes, it gives the whole. -/
theorem flatMap_eq_of_others {α β : Type} {f : α → List β} {l : List α} {j : Nat} {a : α}
    (ha : l[j]? = some a) (hothers : ∀ k b, l[k]? = some b → k ≠ j → f b = []) :
    l.flatMap f = f a := by
  induction l generalizing j with
  | nil => simp at ha
  | cons b l ih =>
    cases j with
    | zero =>
      cases ha
      have hnil : l.flatMap f = [] := List.flatMap_eq_nil_iff.2 fun d hd => by
        obtain ⟨k, hk⟩ := List.getElem?_of_mem hd
        exact hothers (k + 1) d hk (by simp)
      simp [hnil]
    | succ j =>
      have hb : f b = [] := hothers 0 b rfl (by simp)
      simp [hb, ih ha fun k d hk hne => hothers (k + 1) d hk (by omega)]

/-- What a consumer that has not ended holds is all that consumers hold, also
after it has come to another point. -/
theorem Orderly.inHand_set {s : System} (h : s.Orderly)
    (hsound : ∀ c ∈ s.pipeline.consumers, c.Sound) {j : Nat} {c : Consumer}
    (hc : s.pipeline.consumers[j]? = some c) (hs : c.stage ≠ .ended) (c' : Consumer) :
    (s.pipeline.consumers.set j c').flatMap Consumer.unhandled = c'.unhandled := by
  obtain ⟨hlt, -⟩ := List.getElem?_eq_some_iff.1 hc
  refine flatMap_eq_of_others (j := j) (by simp [hlt]) fun k d hd hkj => ?_
  rw [List.getElem?_set_ne (Ne.symm hkj)] at hd
  refine Consumer.unhandled_of_ended (hsound d (List.mem_of_getElem? hd)) (h.ended_of_ne_last hd ?_)
  intro hk
  have hj : j + 1 = s.pipeline.consumers.length :=
    Classical.byContradiction fun hj => hs (h.ended_of_ne_last hc hj)
  omega

theorem Orderly.inHand_eq {s : System} (h : s.Orderly)
    (hsound : ∀ c ∈ s.pipeline.consumers, c.Sound) {j : Nat} {c : Consumer}
    (hc : s.pipeline.consumers[j]? = some c) (hs : c.stage ≠ .ended) :
    s.pipeline.inHand = c.unhandled := by
  have hset := h.inHand_set hsound hc hs c
  obtain ⟨hlt, rfl⟩ := List.getElem?_eq_some_iff.1 hc
  rwa [List.set_getElem_self] at hset

/-- The accepted entries are those that have left, those in hand and those queued, in
this order. -/
def Conserved (s : System) (accepted left : List Entry) : Prop :=
  accepted = left ++ s.pipeline.inHand ++ s.pipeline.buffer.incoming

/-- A step of a consumer that has ended changes nothing. -/
theorem afterConsumer_of_ended {s : System} {j : Nat} {c : Consumer}
    (hc : s.pipeline.consumers[j]? = some c) (hs : c.stage = .ended) :
    s.afterConsumer j c = s := by
  obtain ⟨hlt, rfl⟩ := List.getElem?_eq_some_iff.1 hc
  simp only [afterConsumer, Consumer.step_of_ended hs, List.set_getElem_self]

theorem conserved_afterConsumer {s : System} {accepted left : List Entry}
    (h : s.Conserved accepted left) (ho : s.Orderly)
    (hsound : ∀ c ∈ s.pipeline.consumers, c.Sound) {j : Nat} {c : Consumer}
    (hc : s.pipeline.consumers[j]? = some c) :
    (s.afterConsumer j c).Conserved accepted
      (left ++ (c.departures s.pipeline).map Prod.fst) := by
  by_cases hs : c.stage = .ended
  · have hnil : c.departures s.pipeline = [] := by simp [Consumer.departures, hs]
    rwa [afterConsumer_of_ended hc hs, hnil, List.map_nil, List.append_nil]
  · have hstep := (hsound c (List.mem_of_getElem? hc)).step_departures s.pipeline
    have hbefore := ho.inHand_eq hsound hc hs
    have hafter := ho.inHand_set hsound hc hs (c.step s.pipeline).2
    rw [Conserved, hbefore] at h
    simp only [Conserved, Pipeline.inHand, afterConsumer, Consumer.step_consumers]
    rw [hafter, h, List.append_assoc, ← hstep]
    simp only [List.append_assoc]

theorem conserved_afterTask {s : System} {accepted left : List Entry}
    (h : s.Conserved accepted left) (ho : s.Orderly) {i : Nat} {t : Task} {rest : List Task}
    (ht : (s.caller i).tasks = t :: rest) :
    (s.afterTask i t rest).Conserved (accepted ++ (t.ledger s.pipeline).accepted) left := by
  have hincoming := Task.step_incoming (ho.posts ht) i s.pipeline
  have hinHand : (t.step i s.pipeline).pipeline.inHand = s.pipeline.inHand := by
    unfold Pipeline.inHand
    rcases Task.step_consumers i s.pipeline t with he | ⟨-, he⟩
    · rw [he]
    · simp [he, Consumer.new, Consumer.unhandled, Consumer.taken]
  unfold Conserved at h ⊢
  simp only [afterTask, setCaller_pipeline, hincoming, hinHand, h, List.append_assoc]

theorem inHand_afterTimer {s : System} {j : Nat} {c : Consumer}
    (hc : s.pipeline.consumers[j]? = some c) :
    (s.afterTimer j c).pipeline.inHand = s.pipeline.inHand := by
  obtain ⟨hlt, rfl⟩ := List.getElem?_eq_some_iff.1 hc
  simp only [Pipeline.inHand, afterTimer, List.flatMap_def, List.map_set,
    Consumer.unhandled_expire]
  rw [← List.getElem_map Consumer.unhandled (h := by simpa using hlt), List.set_getElem_self]

/-- After every run, the accepted entries are those that have left, then those in
hand, then those queued. -/
theorem conserved_run (world : World) (ms : List Move) :
    (run world ms).Conserved (ledger world ms).accepted
      ((departed world ms).map Prod.fst) := by
  induction ms using List.reverseRecOn with
  | nil => rfl
  | append_singleton ms m ih =>
    rw [run_concat, ledger_concat, departed_concat, Ledger.accepted_append, List.map_append]
    have ho := orderly_run world ms
    have hsound := sound_run world ms
    have hempty : (run world ms).Conserved ((ledger world ms).accepted ++ Ledger.empty.accepted)
        ((departed world ms).map Prod.fst ++ ([] : List (Entry × Departure)).map Prod.fst) := by
      rwa [Ledger.empty, List.map_nil, List.append_nil, List.append_nil]
    apply next_entries_cases (P := fun s l left => s.Conserved
      ((ledger world ms).accepted ++ l.accepted)
      ((departed world ms).map Prod.fst ++ left.map Prod.fst))
    case nothing => exact hempty
    case begin =>
      intro i call _ _
      cases call <;> exact hempty
    case task =>
      intro i t rest ht
      rw [List.map_nil, List.append_nil]
      exact conserved_afterTask ih ho ht
    case consumer =>
      intro j c hc
      rw [(c.ledger_counts _).2.1, List.append_nil]
      exact conserved_afterConsumer ih ho hsound hc
    case timer =>
      intro j c hc
      unfold Conserved at hempty ⊢
      rw [inHand_afterTimer hc]
      exact hempty
    case outside =>
      intro w
      exact hempty

/-- After every run in which no sink has panicked, the entries that have left are
those handed on. -/
theorem map_fst_departed_of_calm (world : World) (ms : List Move)
    (hcalm : (run world ms).pipeline.Calm) :
    (departed world ms).map Prod.fst = (ledger world ms).handed.map Prod.fst := by
  induction ms using List.reverseRecOn with
  | nil => rfl
  | append_singleton ms m ih =>
    rw [run_concat] at hcalm
    rw [departed_concat, ledger_concat, List.map_append, Ledger.handed_append, List.map_append,
      ih (calm_of_next hcalm), List.append_cancel_left_eq]
    revert hcalm
    apply next_entries_cases (P := fun s l left => s.pipeline.Calm →
      left.map Prod.fst = l.handed.map Prod.fst)
    case begin =>
      intro i call _ _ _
      cases call <;> rfl
    case task =>
      intro i t rest _ _
      rw [t.handed_ledger]
      rfl
    case consumer =>
      intro j c hc hcalm
      exact Consumer.map_fst_departures_of_calm (calm_step hc hcalm)
    all_goals
      intros
      rfl

/-- An entry is given up only when a sink panics. -/
theorem not_discarded_of_calm (world : World) (ms : List Move)
    (hcalm : (run world ms).pipeline.Calm) : ∀ x ∈ departed world ms, x.2 ≠ .discarded := by
  induction ms using List.reverseRecOn with
  | nil => simp [departed, departedFrom]
  | append_singleton ms m ih =>
    rw [run_concat] at hcalm
    rw [departed_concat]
    intro x hx
    rcases List.mem_append.1 hx with hx | hx
    · exact ih (calm_of_next hcalm) x hx
    · revert hcalm hx
      apply next_entries_cases (P := fun s _ left => s.pipeline.Calm → x ∈ left →
        x.2 ≠ .discarded)
      case consumer =>
        intro j c hc hcalm hx
        exact Consumer.not_discarded_of_calm (calm_step hc hcalm) hx
      all_goals
        intros
        simp_all

/-- The accepted entries are those handed on, those in hand and those queued, in
this order. -/
def Balanced (s : System) (l : Ledger) : Prop :=
  s.Conserved l.accepted (l.handed.map Prod.fst)

/-- After every run in which no sink has panicked, the accepted entries are those
handed on, then those in hand, then those queued. -/
theorem balanced_run (world : World) (ms : List Move) (hcalm : (run world ms).pipeline.Calm) :
    (run world ms).Balanced (ledger world ms) := by
  have h := conserved_run world ms
  rwa [map_fst_departed_of_calm world ms hcalm] at h

/-- What sinks have written after a run are the lines of the entries handed to
them. -/
theorem printed_run (world : World) (ms : List Move) :
    (run world ms).pipeline.printed.reverse.filter Printed.isLine = (ledger world ms).lines := by
  induction ms using List.reverseRecOn with
  | nil => rfl
  | append_singleton ms m ih =>
    rw [run_concat, ledger_concat, Ledger.lines_append, ← ih]
    have hempty : (run world ms).pipeline.printed.reverse.filter Printed.isLine =
        (run world ms).pipeline.printed.reverse.filter Printed.isLine ++ Ledger.empty.lines := by
      simp [Ledger.lines, Ledger.empty]
    apply next_ledger_cases (P := fun s l => s.pipeline.printed.reverse.filter Printed.isLine =
      (run world ms).pipeline.printed.reverse.filter Printed.isLine ++ l.lines)
    case begin =>
      intro i call _ _
      cases call <;> exact hempty
    case task =>
      intro i t rest _
      simp [afterTask, Task.step_printed, Ledger.lines, Task.handed_ledger]
    case consumer =>
      intro j c _
      exact c.step_printed _
    all_goals
      intros
      exact hempty

/-- The lines in the ledger of a run are those of the entries that have left. -/
theorem lines_departed (world : World) (ms : List Move) :
    (ledger world ms).lines = (departed world ms).filterMap fun x => x.2.line? x.1 := by
  induction ms using List.reverseRecOn with
  | nil => rfl
  | append_singleton ms m ih =>
    rw [departed_concat, ledger_concat, Ledger.lines_append, ih, List.filterMap_append,
      List.append_cancel_left_eq]
    apply next_entries_cases (P := fun _ l left =>
      l.lines = left.filterMap fun x => x.2.line? x.1)
    case begin =>
      intro i call _ _
      cases call <;> rfl
    case task =>
      intro i t rest _
      rw [Ledger.lines, t.handed_ledger]
      rfl
    case consumer =>
      intro j c _
      exact c.lines_ledger _
    all_goals
      intros
      rfl

/-! ## Counts -/

theorem callersOf_concat (ms : List Move) (m : Move) :
    callersOf ms ⊆ callersOf (ms ++ [m]) := by
  intro i hi
  simp only [callersOf, List.filterMap_append, List.mem_toFinset, List.mem_append] at hi ⊢
  exact .inl hi

/-- A caller that has something to do has begun a call. -/
theorem mem_callersOf (world : World) (ms : List Move) (i : Nat)
    (hi : ((run world ms).caller i).tasks ≠ []) : i ∈ callersOf ms := by
  induction ms using List.reverseRecOn with
  | nil => exact (hi rfl).elim
  | append_singleton ms m ih =>
    rw [run_concat] at hi
    revert hi
    have hold : ((run world ms).caller i).tasks ≠ [] → i ∈ callersOf (ms ++ [m]) := fun hi =>
      callersOf_concat ms m (ih hi)
    apply next_cases (P := fun s => (s.caller i).tasks ≠ [] → i ∈ callersOf (ms ++ [m]))
    case begin =>
      intro j call hm _ hi
      by_cases hij : i = j
      · simp [callersOf, hm, hij]
      · rw [setCaller_caller_of_ne _ _ hij] at hi
        exact hold hi
    case task =>
      intro j t rest ht hi
      by_cases hij : i = j
      · subst hij
        exact hold (by simp [ht])
      · rw [afterTask, setCaller_caller_of_ne _ _ hij] at hi
        exact hold hi
    all_goals
      intros
      exact hold (by assumption)

/-- All callers are idle if those are that have begun a call. -/
theorem idle_of_begun (world : World) (ms : List Move)
    (h : ∀ m ∈ ms, (match m with
      | .begin i _ => ((run world ms).caller i).tasks.isEmpty
      | _ => true) = true) (i : Nat) :
    ((run world ms).caller i).tasks = [] := by
  by_contra hne
  have hi := mem_callersOf world ms i hne
  simp only [callersOf, List.mem_toFinset, List.mem_filterMap] at hi
  obtain ⟨m, hm, hbegin⟩ := hi
  have hidle := h m hm
  cases m with
  | begin j call =>
    cases hbegin
    exact hne (List.isEmpty_iff.1 hidle)
  | _ => cases hbegin

/-- A caller that comes to another point changes its own part of a total. -/
theorem total_setCaller (s : System) {callers : Finset Nat} {i : Nat} (hi : i ∈ callers)
    (c : Caller) (f : Task → Nat) :
    (s.setCaller i c).total callers f + ((s.caller i).tasks.map f).sum =
      s.total callers f + (c.tasks.map f).sum := by
  have hothers : ∑ j ∈ callers.erase i, (((s.setCaller i c).caller j).tasks.map f).sum =
      ∑ j ∈ callers.erase i, ((s.caller j).tasks.map f).sum :=
    Finset.sum_congr rfl fun j hj => by
      rw [setCaller_caller_of_ne s c (Finset.ne_of_mem_erase hj)]
  unfold total
  rw [← Finset.add_sum_erase callers _ hi, hothers, setCaller_caller_self,
    ← Finset.add_sum_erase callers (fun j => ((s.caller j).tasks.map f).sum) hi]
  omega

/-- A call that begins puts on its way what it enters as passed. -/
theorem Call.sum_inFlight (call : Call) :
    (call.tasks.map Task.inFlight).sum = call.ledger.passed ∧
      (call.tasks.map Task.uncounted).sum = 0 ∧ call.ledger.accepted = [] ∧
      call.ledger.refused = 0 ∧ call.ledger.lost = 0 := by
  cases call with
  | log r =>
    simp only [Call.tasks]
    split <;>
      simp [Task.inFlight, Task.uncounted, Call.ledger, Ledger.empty, Ledger.lost]
  | apply c =>
    simp only [Call.tasks, Call.applyTasks, Call.switchFileTasks, Call.startDumpTasks]
    split <;>
      simp [Task.inFlight, Task.uncounted, Call.ledger, Ledger.empty, Ledger.lost,
        BufferCall.reserve]
  | _ =>
    simp [Call.tasks, Call.switchFileTasks, Call.startDumpTasks, Task.inFlight, Task.uncounted,
      Call.ledger, Ledger.empty, Ledger.lost, BufferCall.reserve]

/-- What passed the filter is accepted, refused or on its way; what is counted as
dropped, or about to be, was refused or lost. -/
structure Counted (s : System) (callers : Finset Nat) (l : Ledger) : Prop where
  passed : l.passed = l.accepted.length + l.refused + s.total callers Task.inFlight
  dropped : ∃ n, s.pipeline.dropped = UInt64.ofNat n ∧
    n + s.total callers Task.uncounted = l.refused + l.lost

theorem counted_begin {s : System} {callers : Finset Nat} {l : Ledger}
    (h : s.Counted callers l) {i : Nat} (hi : i ∈ callers) (hnil : (s.caller i).tasks = [])
    (call : Call) : (s.setCaller i (.begin call)).Counted callers (l ++ call.ledger) := by
  obtain ⟨hflight, huncounted, haccepted, hrefused, hlost⟩ := Call.sum_inFlight call
  have htotal := fun f => s.total_setCaller hi (.begin call) f
  simp only [hnil, List.map_nil, List.sum_nil, Nat.add_zero, Caller.begin] at htotal
  constructor
  · have := h.passed
    simp only [Caller.begin, Ledger.passed_append, Ledger.accepted_append, haccepted,
      Ledger.refused_append, hrefused, List.append_nil, htotal, hflight]
    omega
  · obtain ⟨n, hn, hsum⟩ := h.dropped
    refine ⟨n, hn, ?_⟩
    simp only [Caller.begin, htotal, huncounted, Ledger.refused_append, hrefused,
      Ledger.lost_append, hlost]
    omega

theorem counted_afterTask {s : System} {callers : Finset Nat} {l : Ledger}
    (h : s.Counted callers l) (ho : s.Orderly) {i : Nat} (hi : i ∈ callers) {t : Task}
    {rest : List Task} (ht : (s.caller i).tasks = t :: rest) :
    (s.afterTask i t rest).Counted callers (l ++ t.ledger s.pipeline) := by
  have hposts := ho.posts ht
  have hpassed := Task.step_counts hposts i s.pipeline
  have hrefused := Task.step_uncounted hposts i s.pipeline
  have hdropped := Task.step_dropped (t := t) i s.pipeline
  have hlost : (t.ledger s.pipeline).lost = 0 := by
    rw [Ledger.lost, Task.handed_ledger, List.countP_nil]
  -- both totals change by the tasks that take the place of this one
  have htotal : ∀ f : Task → Nat, (s.afterTask i t rest).total callers f + f t =
      s.total callers f + ((t.step i s.pipeline).next.map f).sum := fun f => by
    have h := total_setCaller { s with pipeline := (t.step i s.pipeline).pipeline } hi
      ⟨(t.step i s.pipeline).next ++ rest, (t.step i s.pipeline).reply <|> (s.caller i).reply⟩ f
    have hsame : total { s with pipeline := (t.step i s.pipeline).pipeline } callers f =
      s.total callers f := rfl
    simp only [ht, hsame, List.map_cons, List.sum_cons, List.map_append, List.sum_append] at h
    unfold afterTask
    omega
  constructor
  · have := h.passed
    have := htotal Task.inFlight
    simp only [Ledger.passed_append, Ledger.accepted_append, Ledger.refused_append,
      List.length_append]
    omega
  · obtain ⟨n, hn, hsum⟩ := h.dropped
    have := htotal Task.uncounted
    refine ⟨n + t.uncounted, ?_, ?_⟩
    · simp only [afterTask, setCaller_pipeline, hdropped, hn, UInt64.ofNat_add]
    · simp only [Ledger.refused_append, Ledger.lost_append, hlost]
      omega

theorem counted_afterConsumer {s : System} {callers : Finset Nat} {l : Ledger}
    (h : s.Counted callers l) (j : Nat) (c : Consumer) :
    (s.afterConsumer j c).Counted callers (l ++ c.ledger s.pipeline) := by
  obtain ⟨hpassed, haccepted, hrefused⟩ := c.ledger_counts s.pipeline
  constructor
  · have := h.passed
    simp only [Ledger.passed_append, hpassed, Ledger.accepted_append, haccepted,
      Ledger.refused_append, hrefused, List.append_nil, Nat.add_zero]
    exact this
  · obtain ⟨n, hn, hsum⟩ := h.dropped
    refine ⟨n + (c.ledger s.pipeline).lost, ?_, ?_⟩
    · simp only [afterConsumer, Consumer.step_dropped, hn, UInt64.ofNat_add]
    · have hsame : (s.afterConsumer j c).total callers Task.uncounted =
        s.total callers Task.uncounted := rfl
      simp only [hsame, Ledger.refused_append, hrefused, Ledger.lost_append]
      omega

/-- After every run, what passed the filter and what was dropped is counted. -/
theorem counted_run (world : World) (ms : List Move) (callers : Finset Nat)
    (hcallers : callersOf ms ⊆ callers) : (run world ms).Counted callers (ledger world ms) := by
  induction ms using List.reverseRecOn with
  | nil =>
    have htotal : ∀ f, (run world []).total callers f = 0 := fun f => by
      simp [run_nil, new, total, Caller.idle]
    refine ⟨?_, 0, rfl, ?_⟩ <;> rw [htotal] <;> rfl
  | append_singleton ms m ih =>
    rw [run_concat, ledger_concat]
    have h := ih fun i hi => hcallers (callersOf_concat ms m hi)
    have hempty : (run world ms).Counted callers (ledger world ms ++ .empty) := by
      rwa [Ledger.append_empty]
    apply next_ledger_cases (P := fun s l => s.Counted callers (ledger world ms ++ l))
    case nothing => exact hempty
    case begin =>
      intro i call hm hi
      exact counted_begin h (hcallers (by simp [callersOf, hm])) hi call
    case task =>
      intro i t rest ht
      have hi := mem_callersOf world ms i (by simp [ht])
      exact counted_afterTask h (orderly_run world ms) (hcallers (callersOf_concat ms m hi)) ht
    case consumer =>
      intro j c _
      exact counted_afterConsumer h j c
    case timer | outside =>
      intros
      exact ⟨hempty.passed, hempty.dropped⟩

/-- The lost entries are those that have left as lost. -/
theorem lost_departed (world : World) (ms : List Move) :
    (departed world ms).countP (fun x => x.2.isLost) = (ledger world ms).lost := by
  induction ms using List.reverseRecOn with
  | nil => rfl
  | append_singleton ms m ih =>
    rw [departed_concat, ledger_concat, Ledger.lost_append, List.countP_append, ih,
      Nat.add_left_cancel_iff]
    apply next_entries_cases (P := fun _ l left => left.countP (fun x => x.2.isLost) = l.lost)
    case begin =>
      intro i call _ _
      exact (Call.sum_inFlight call).2.2.2.2.symm
    case task =>
      intro i t rest _
      rw [Ledger.lost, t.handed_ledger]
      rfl
    case consumer =>
      intro j c _
      exact c.lost_departures _
    all_goals
      intros
      rfl

/-! ## The books -/

/-- The ledger of a run in which no sink has panicked. Every accepted entry has
been handed on, is in the hands of the one consumer that has not ended, or is
queued, in the order in which entries were accepted; the queue is only ever
exchanged for an empty one; and every entry that passed the filter, and every
dropped one, is accounted for. -/
theorem ledger_accounts (world : World) (ms : List Move)
    (hcalm : (run world ms).pipeline.Calm) :
    (ledger world ms).accepted = (ledger world ms).handed.map Prod.fst ++
        (run world ms).pipeline.inHand ++ (run world ms).pipeline.buffer.incoming ∧
      (ledger world ms).lines = (run world ms).pipeline.printed.reverse.filter Printed.isLine ∧
      (∀ j c, (run world ms).pipeline.consumers[j]? = some c →
        (j + 1 ≠ (run world ms).pipeline.consumers.length → c.stage = .ended) ∧
        (c.stage = .ended → c.draining = []) ∧ c.unhandled <:+ c.taken ∧
        ∀ entries room a, c.stage = .takeQueue (.enter (.exchange entries room) a) →
          entries = [] ∧ c.draining = []) ∧
      (ledger world ms).passed = (ledger world ms).accepted.length + (ledger world ms).refused +
        (run world ms).total (callersOf ms) Task.inFlight ∧
      ((ledger world ms).refused + (ledger world ms).lost < 2 ^ 64 →
        (run world ms).pipeline.dropped.toNat + (run world ms).total (callersOf ms) Task.uncounted =
          (ledger world ms).refused + (ledger world ms).lost) := by
  have hcounted := counted_run world ms (callersOf ms) fun _ => id
  refine ⟨balanced_run world ms hcalm, (printed_run world ms).symm, fun j c hc => ?_,
    hcounted.passed, fun hlt => ?_⟩
  · have hsound := sound_run world ms c (List.mem_of_getElem? hc)
    refine ⟨(orderly_run world ms).ended_of_ne_last hc, fun hs => ?_, hsound.unhandled_suffix,
      fun entries room a hs => ?_⟩
    · simpa only [Consumer.Sound, hs] using hsound
    · simp only [Consumer.Sound, hs] at hsound
      exact ⟨hsound.2.1, hsound.1⟩
  · obtain ⟨n, hn, hsum⟩ := hcounted.dropped
    have hn' : (UInt64.ofNat n).toNat = n := by
      rw [UInt64.toNat_ofNat']
      exact Nat.mod_eq_of_lt (by omega)
    rw [hn, hn']
    exact hsum

/-- An entry is queued, and a consumer that is started then prints it. -/
theorem ledger_accounts_of_printed :
    let world := World.calm ⟨[], []⟩ fun _ => 0
    let ms := .begin 0 (.log ⟨.info, "a", [], ⟨"f", 1⟩⟩) :: List.replicate 8 (.act (.caller 0)) ++
      .begin 1 .start :: List.replicate 20 (.act (.caller 1)) ++
      List.replicate 14 (.act (.consumer 0))
    (run world ms).pipeline.Calm ∧ (ledger world ms).handed.length = 1 ∧
      (ledger world ms).accepted = (ledger world ms).handed.map Prod.fst ++
        (run world ms).pipeline.inHand ++ (run world ms).pipeline.buffer.incoming := by
  intro world ms
  have hcalm : (run world ms).pipeline.Calm := by
    unfold Pipeline.Calm
    decide +kernel
  exact ⟨hcalm, by decide +kernel, (ledger_accounts world ms hcalm).1⟩

end System

end LogPipeline
