import LogPipeline.Proofs.Progress
import LogPipeline.Proofs.Reconfiguration

/-!
# Panics of sinks are contained

A sink may panic at any line. All that it takes away is the entry at which it panics and those
drained together with it that are yet to be printed (`panic_of_discarded`, `Panic.next`): the
queue is as it was, the consumer says that it has ended, and what was printed stays printed. Once
no sink is left that may panic, nothing is discarded and consumers go on (`System.Steady`).
-/

namespace LogPipeline

open Sync

/-! ## What a panic takes away -/

namespace Consumer

variable {p : Pipeline} {c : Consumer} {sink : Sink} {rest : List Entry}

/-- How a consumer comes to print, and goes on with it. -/
theorem print_of_step (h : (c.step p).2.stage = .print sink rest) :
    c.stage = .pickSink ∧ sink = p.sink ∧ (c.step p).2.draining = rest ∨
      ∃ e, c.stage = .print sink (e :: rest) ∧ (c.step p).2.draining = c.draining ∧
        c.departures p = [(e, .printed sink)] := by
  rcases handsOver_of_step (show (c.step p).2.stage.HandsOver by rw [h]; trivial) with
    ⟨-, hs, -⟩ | ⟨-, hs, -⟩ | ⟨hs, hs'⟩ | ⟨sink', e, rest', hs, hs'⟩
  · cases h.symm.trans hs
  · cases h.symm.trans hs
  · cases h.symm.trans hs'
    exact .inl ⟨hs, rfl, by simp [step, hs]⟩
  · cases h.symm.trans hs'
    have hpanics : sink.panics (p.records sink.channel).length ≠ true := fun hpanics => by
      simp [step, hs, hpanics] at h
    exact .inr ⟨e, hs, by simp [step, hs, hpanics], by simp [departures, hs, hpanics]⟩

theorem print_of_expire (h : (c.expire p).stage = .print sink rest) : c.expire p = c := by
  unfold Consumer.expire at h ⊢
  split at h
  · cases h
  · cases h
  · rfl

end Consumer

namespace System

/-- A consumer is about to go on with printing. What it has drained is printed up to `rest`. -/
structure Printing (s : System) (left : List (Entry × Departure)) (j : Nat) (sink : Sink)
    (printed rest : List Entry) : Prop where
  consumer : ∃ c, s.pipeline.consumers[j]? = some c ∧ c.stage = .print sink rest ∧
    c.draining = printed ++ rest
  printed : (printed.map fun e => (e, .printed sink)) <:+ left

/-- While a consumer prints what it has drained, what it has printed of it are the entries that
have left last. -/
theorem printing_run (world : World) (ms : List Move) {j : Nat} {c : Consumer} {sink : Sink}
    {rest : List Entry} (hc : (run world ms).pipeline.consumers[j]? = some c)
    (hs : c.stage = .print sink rest) :
    ∃ printed, Printing (run world ms) (departed world ms) j sink printed rest := by
  induction ms using List.reverseRecOn generalizing j c rest with
  | nil => cases hc
  | append_singleton ms m ih =>
    have ho := orderly_run world ms
    rw [run_concat] at hc ⊢
    rw [departed_concat]
    -- what holds of a consumer as it was, and when nothing leaves
    have hstays : ∀ s' : System, s'.pipeline.consumers[j]? = some c →
        (run world ms).pipeline.consumers[j]? = some c → c.stage = .print sink rest →
        ∃ printed, Printing s' (departed world ms ++ []) j sink printed rest :=
      fun s' hc' hc hs => by
      obtain ⟨printed, ⟨d, hd, -, hsplit⟩, hprinted⟩ := ih hc hs
      cases hc.symm.trans hd
      exact ⟨printed, ⟨c, hc', hs, hsplit⟩, by rwa [List.append_nil]⟩
    revert hc hs
    apply next_entries_cases (P := fun s' _ gone => s'.pipeline.consumers[j]? = some c →
      c.stage = .print sink rest →
      ∃ printed, Printing s' (departed world ms ++ gone) j sink printed rest)
    case consumer =>
      intro k d hd hc hs
      simp only [afterConsumer, Consumer.step_consumers] at hc
      rcases getElem?_set_cases hd hc with ⟨rfl, rfl⟩ | ⟨hjk, hc'⟩
      · obtain ⟨hlt, -⟩ := List.getElem?_eq_some_iff.1 hd
        rcases Consumer.print_of_step hs with ⟨-, -, hdraining⟩ | ⟨e, hs', hdraining, hleft⟩
        · exact ⟨[], ⟨_, by simp [afterConsumer, hlt], hs, hdraining⟩, List.nil_suffix⟩
        · obtain ⟨printed, ⟨d', hd', -, hsplit⟩, hprinted⟩ := ih hd hs'
          cases hd.symm.trans hd'
          refine ⟨printed ++ [e], ⟨_, by simp [afterConsumer, hlt], hs, ?_⟩, ?_⟩
          · rw [hdraining, hsplit, List.append_assoc, List.singleton_append]
          · obtain ⟨first, hfirst⟩ := hprinted
            exact ⟨first, by simp [hleft, ← hfirst]⟩
      · -- the other consumer has ended, and nothing leaves its hands
        have hended : d.stage = .ended := by_contra fun hne =>
          hjk (ho.index_eq hc' hd (by simp [hs]) hne)
        rw [afterConsumer_of_ended hd hended]
        simpa [Consumer.departures, hended] using hstays _ hc' hc' hs
    case task =>
      intro i t rest' _ hc hs
      rcases t.step_consumers i (run world ms).pipeline with he | ⟨-, he⟩
      · exact hstays _ hc (by simpa only [afterTask, setCaller_pipeline, he] using hc) hs
      · rcases getElem?_concat_cases (he ▸ hc) with hc' | rfl
        · exact hstays _ hc hc' hs
        · cases hs
    case timer =>
      intro k d hd hc hs
      rcases getElem?_set_cases hd hc with ⟨rfl, rfl⟩ | ⟨-, hc'⟩
      · exact hstays _ hc (by rw [Consumer.print_of_expire hs]; exact hd) hs
      · exact hstays _ hc hc' hs
    all_goals
      intros
      exact hstays _ (by assumption) (by assumption) (by assumption)

/-- A sink panics with the next step of a consumer, at the first of the entries in `rest`. They are
what is left of what the consumer has drained, and what came before has been printed. -/
structure Panic (s : System) (left : List (Entry × Departure)) (j : Nat) (sink : Sink)
    (printed rest : List Entry) : Prop extends Printing s left j sink printed rest where
  some_left : rest ≠ []
  panics : sink.panics (s.pipeline.records sink.channel).length = true

/-- Entries are discarded only when a sink panics. -/
theorem panic_of_discarded {world : World} {ms : List Move} {m : Move} {x : Entry × Departure}
    (hx : x ∈ (run world ms).departedOf m) (hdiscarded : x.2 = .discarded) :
    ∃ j sink printed rest, m = .act (.consumer j) ∧
      Panic (run world ms) (departed world ms) j sink printed rest := by
  match m with
  | .act (.consumer j) =>
    simp only [departedOf] at hx
    split at hx
    · next c hc =>
      obtain ⟨sink, e, rest, hs, hpanics⟩ := Consumer.panics_of_discarded hx hdiscarded
      obtain ⟨printed, hprinting⟩ := printing_run world ms hc hs
      exact ⟨j, sink, printed, e :: rest, rfl, hprinting, by simp, hpanics⟩
    · cases hx
  | .begin _ _ | .act (.caller _) | .act (.timer _) | .outside _ => cases hx

/-- A panic takes away the entries that are left, and changes nothing but the consumer, which has
no entry left and goes on to say that it has ended. -/
theorem Panic.next {s : System} {left : List (Entry × Departure)} {j : Nat} {sink : Sink}
    {printed rest : List Entry} (h : Panic s left j sink printed rest) (ho : s.Orderly)
    (hsound : ∀ c ∈ s.pipeline.consumers, c.Sound) :
    s.departedOf (.act (.consumer j)) = (rest.map fun e => (e, .discarded)) ∧
      (s.next (.act (.consumer j))).pipeline.inHand = [] ∧
      ∃ c, (s.next (.act (.consumer j))).pipeline =
          { s.pipeline with consumers := s.pipeline.consumers.set j c } ∧
        c.stage = .finish (.start .close) ∧ c.panicked = true := by
  obtain ⟨c, hc, hs, -⟩ := h.consumer
  obtain ⟨e, rest, rfl⟩ := List.exists_cons_of_ne_nil h.some_left
  obtain ⟨hstep, hleft⟩ := Consumer.step_of_panics hs h.panics
  rw [System.next, step_consumer_of_some hc]
  refine ⟨by simpa [departedOf, hc] using hleft, ?_, (c.step s.pipeline).2, ?_, ?_⟩
  · have hinHand := ho.inHand_set hsound hc (by simp [hs]) (c.step s.pipeline).2
    simp only [Pipeline.inHand, afterConsumer, Consumer.step_consumers, hinHand]
    simp [hstep, Consumer.unhandled, Consumer.taken]
  · simp [afterConsumer, hstep]
  · simp [hstep]

end System

/-! ## Sinks that do not panic -/

/-- A sink that does not panic, however much its channel holds. -/
def Sink.Steady (s : Sink) : Prop := ∀ n, s.panics n = false

/-- A call that sets no sink that may panic. -/
def Move.Steady : Move → Prop
  | .begin _ (.setSink s) => s.Steady
  | _ => True

theorem Move.steady_acts (actors : List Actor) : ∀ m ∈ actors.map Move.act, m.Steady := by
  intro m hm
  obtain ⟨a, -, rfl⟩ := List.mem_map.1 hm
  trivial

/-- A task sets no sink but the one it is about. -/
theorem Task.step_sink (i : Nat) (p : Pipeline) (t : Task) :
    (t.step i p).pipeline.sink = p.sink ∨
      ∃ s, t = .store (.sink s) ∧ (t.step i p).pipeline.sink = s := by
  apply pipeline_cases (P := fun p' => p'.sink = p.sink ∨ ∃ s, t = store (.sink s) ∧ p'.sink = s)
  case onEvent =>
    intro name c _
    cases name <;> exact .inl rfl
  case store =>
    intro setting ht
    cases setting with
    | sink s => exact .inr ⟨s, ht, rfl⟩
    | _ => exact .inl rfl
  all_goals
    intros
    exact .inl rfl

/-- A sink that does not panic lets the consumer go on. -/
theorem Consumer.panicked_step {p : Pipeline} {c : Consumer}
    (h : ∀ sink rest, c.stage = .print sink rest → sink.Steady) :
    (c.step p).2.panicked = c.panicked := by
  cases hs : c.stage with
  | print sink rest =>
    cases rest with
    | nil => simp [step, hs]
    | cons e rest => simp [step, hs, h sink _ hs _]
  | checkStop call | takeQueue call =>
    simp only [step, hs]
    split <;> rfl
  | _ => simp only [step, hs]

namespace System

/-- No sink will panic: neither the one in use nor one that is about to be set or has been taken
does, and the consumer to be stopped has met none that did. -/
structure Steady (s : System) : Prop where
  sink : s.pipeline.sink.Steady
  stored : ∀ i sink, .store (.sink sink) ∈ (s.caller i).tasks → sink.Steady
  printing : ∀ c ∈ s.pipeline.consumers, ∀ sink rest, c.stage = .print sink rest → sink.Steady
  worker : ∀ k c, s.pipeline.worker = some k → s.pipeline.consumers[k]? = some c →
    c.panicked = false

variable {s : System}

theorem Steady.afterTask (h : s.Steady) {i : Nat} {t : Task} {rest : List Task}
    (ht : (s.caller i).tasks = t :: rest) : (s.afterTask i t rest).Steady where
  sink := by
    rw [System.afterTask, setCaller_pipeline]
    rcases t.step_sink i s.pipeline with he | ⟨sink, rfl, he⟩
    · exact he ▸ h.sink
    · exact he ▸ h.stored i sink (by rw [ht]; exact List.mem_cons_self)
  stored := by
    refine forall_setCaller (P := fun _ c => ∀ sink, .store (.sink sink) ∈ c.tasks → sink.Steady)
      (fun sink hmem => ?_) fun j _ => h.stored j
    rcases List.mem_append.1 hmem with hmem | hmem
    · exact ((Task.of_mem_next hmem).1 _ rfl).elim
    · exact h.stored i sink (ht ▸ List.mem_cons_of_mem t hmem)
  printing c hc sink left hs := by
    rw [System.afterTask, setCaller_pipeline] at hc
    rcases t.step_consumers i s.pipeline with he | ⟨-, he⟩ <;> rw [he] at hc
    · exact h.printing c hc sink left hs
    · rcases List.mem_append.1 hc with hc | hc
      · exact h.printing c hc sink left hs
      · obtain rfl := List.mem_singleton.1 hc
        cases hs
  worker k c hk hc := by
    simp only [System.afterTask, setCaller_pipeline] at hk hc
    rcases t.step_worker i s.pipeline with rfl | hw | ⟨-, hw⟩
    · -- the consumer to be stopped is the new one
      cases hk
      rw [Task.step, List.getElem?_concat_length] at hc
      cases hc
      rfl
    · rcases t.step_consumers i s.pipeline with he | ⟨rfl, -⟩
      · exact h.worker k c (hw ▸ hk) (he ▸ hc)
      · cases hk
        rw [Task.step, List.getElem?_concat_length] at hc
        cases hc
        rfl
    · cases hw.symm.trans hk

theorem Steady.afterConsumer (h : s.Steady) {j : Nat} {c : Consumer}
    (hc : s.pipeline.consumers[j]? = some c) : (s.afterConsumer j c).Steady where
  sink := by
    have hsame : (c.step s.pipeline).1.sink = s.pipeline.sink := (c.step_frame s.pipeline).2.2.2.1
    exact hsame ▸ h.sink
  stored := h.stored
  printing d hd sink left hs := by
    obtain ⟨k, hk⟩ := List.getElem?_of_mem hd
    simp only [System.afterConsumer, Consumer.step_consumers] at hk
    rcases getElem?_set_cases hc hk with ⟨-, rfl⟩ | ⟨-, hk⟩
    · rcases Consumer.print_of_step hs with ⟨-, rfl, -⟩ | ⟨e, hs', -⟩
      · exact h.sink
      · exact h.printing c (List.mem_of_getElem? hc) sink _ hs'
    · exact h.printing d (List.mem_of_getElem? hk) sink left hs
  worker k d hk hd := by
    simp only [System.afterConsumer, Consumer.step_consumers, Consumer.step_worker] at hk hd
    rcases getElem?_set_cases hc hd with ⟨rfl, rfl⟩ | ⟨-, hd⟩
    · rw [Consumer.panicked_step (h.printing c (List.mem_of_getElem? hc))]
      exact h.worker k c hk hc
    · exact h.worker k d hk hd

theorem Steady.next (h : s.Steady) {m : Move} (hm : m.Steady) : (s.next m).Steady := by
  apply next_cases
  case nothing => exact h
  case begin =>
    rintro i call rfl -
    refine ⟨h.sink, ?_, h.printing, h.worker⟩
    refine forall_setCaller (P := fun _ c => ∀ sink, .store (.sink sink) ∈ c.tasks → sink.Steady)
      (fun sink hmem => ?_) fun j _ => h.stored j
    obtain rfl := Call.store_sink hmem
    exact hm
  case task =>
    intro i t rest ht
    exact h.afterTask ht
  case consumer =>
    intro j c hc
    exact h.afterConsumer hc
  case timer =>
    intro j c hc
    refine ⟨h.sink, h.stored, fun d hd sink left hs => ?_, fun k d hk hd => ?_⟩
    · rcases List.mem_or_eq_of_mem_set hd with hd | rfl
      · exact h.printing d hd sink left hs
      · rw [Consumer.print_of_expire hs] at hs
        exact h.printing c (List.mem_of_getElem? hc) sink left hs
    · rcases getElem?_set_cases hc hd with ⟨rfl, rfl⟩ | ⟨-, hd⟩
      · rw [Consumer.panicked_expire]
        exact h.worker k c hk hc
      · exact h.worker k d hk hd
  case outside =>
    intro w
    exact ⟨h.sink, h.stored, h.printing, h.worker⟩

/-- Nothing is discarded while no sink panics. -/
theorem Steady.not_discarded (h : s.Steady) (m : Move) : ∀ x ∈ s.departedOf m, x.2 ≠ .discarded := by
  intro x hx hdiscarded
  match m with
  | .act (.consumer j) =>
    simp only [departedOf] at hx
    split at hx
    · next c hc =>
      obtain ⟨sink, e, rest, hs, hpanics⟩ := Consumer.panics_of_discarded hx hdiscarded
      cases (h.printing c (List.mem_of_getElem? hc) sink _ hs _).symm.trans hpanics
    · cases hx
  | .begin _ _ | .act (.caller _) | .act (.timer _) | .outside _ => cases hx

/-- While no sink panics, a consumer that has met none that did meets none. -/
theorem Steady.calm_next (h : s.Steady) {k : Nat}
    (hk : ∃ c, s.pipeline.consumers[k]? = some c ∧ c.panicked = false) (m : Move) :
    ∃ c, (s.next m).pipeline.consumers[k]? = some c ∧ c.panicked = false := by
  obtain ⟨c, hc, hcalm⟩ := hk
  obtain ⟨d, hd, rfl | rfl | rfl⟩ := consumer_next hc m
  · exact ⟨d, hd, hcalm⟩
  · exact ⟨_, hd, by rwa [Consumer.panicked_step (h.printing c (List.mem_of_getElem? hc))]⟩
  · exact ⟨_, hd, by rwa [Consumer.panicked_expire]⟩

section Run

variable (h : s.Steady) {later : List Move} (hlater : ∀ m ∈ later, m.Steady)
include h hlater

/-- Once no sink will panic, none will as long as none is set that may. -/
theorem Steady.runFrom : (s.runFrom later).Steady := by
  induction later generalizing s with
  | nil => exact h
  | cons m later ih =>
    exact ih (h.next (hlater m List.mem_cons_self)) fun m' hm' =>
      hlater m' (List.mem_cons_of_mem m hm')

/-- Once no sink will panic, nothing is discarded. -/
theorem Steady.not_discarded_from : ∀ x ∈ s.departedFrom later, x.2 ≠ .discarded := by
  induction later generalizing s with
  | nil => exact fun x hx => by cases hx
  | cons m later ih =>
    intro x hx
    rcases List.mem_append.1 hx with hx | hx
    · exact h.not_discarded m x hx
    · exact ih (h.next (hlater m List.mem_cons_self))
        (fun m' hm' => hlater m' (List.mem_cons_of_mem m hm')) x hx

/-- Once no sink will panic, consumers go on. -/
theorem Steady.calm_from {k : Nat}
    (hk : ∃ c, s.pipeline.consumers[k]? = some c ∧ c.panicked = false) :
    ∃ c, (s.runFrom later).pipeline.consumers[k]? = some c ∧ c.panicked = false := by
  induction later generalizing s with
  | nil => exact hk
  | cons m later ih =>
    exact ih (h.next (hlater m List.mem_cons_self))
      (fun m' hm' => hlater m' (List.mem_cons_of_mem m hm')) (h.calm_next hk m)

end Run

end System

end LogPipeline
