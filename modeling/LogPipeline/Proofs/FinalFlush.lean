import LogPipeline.Proofs.Ledger.Effects

/-!
# The last round of a consumer

A consumer looks whether it is to stop before it takes the queue. So a consumer
that ends has taken the queue after it saw that it was to stop, and what had been
accepted by the time the stop event was closed was in what it took
(`Consumer.Flushing`). A stop that takes a consumer waits for its end, so that
all of this has been printed or dumped when it returns (`stop_flushes`).
-/

namespace LogPipeline

open Sync

/-! ## One consumer -/

namespace Consumer

/-- A consumer that has not seen that it is to stop. -/
def Unaware (c : Consumer) : Prop :=
  c.stopping = false ∧
    match c.stage with
    | .checkStop (.leave _ slot) => slot.isSome
    | .checkStop (.finished _) | .finish _ | .ended => False
    | _ => True

/-- A consumer that has taken the queue for the last time. -/
def Flushing (c : Consumer) : Prop :=
  match c.stage with
  | .takeQueue (.publish _) | .takeQueue (.leave _) | .choose | .dump | .pickSink | .print _ _
  | .flush _ | .decide => c.stopping = true
  | .finish _ | .ended => True
  | _ => False

theorem unaware_new : Consumer.new.Unaware := ⟨rfl, trivial⟩

theorem Unaware.not_flushing {c : Consumer} (h : c.Unaware) : ¬c.Flushing := by
  obtain ⟨hstopping, hstage⟩ := h
  unfold Flushing
  split <;> simp_all

/-- While the stop event is open, a consumer does not see that it is to stop. -/
theorem Unaware.step {c : Consumer} (h : c.Unaware) (hsound : c.Sound) {p : Pipeline}
    (hlive : p.stopEvent.live.isSome) (hcalm : (c.step p).2.panicked = false) :
    (c.step p).2.Unaware := by
  obtain ⟨hstopping, hstage⟩ := h
  unfold Sound at hsound
  cases hs : c.stage with
  | checkStop call =>
    simp only [hs] at hsound hstage
    simp only [Consumer.step, hs]
    cases call with
    | enter op a =>
      obtain rfl : op = .isClosed := hsound.2.1
      rcases SpinLock.attempt_of_budget_zero hsound.2.2 p.stopEvent.lock with hacq | hagain
      · simpa [EventCall.step, hacq, BroadcastEvent.exchange, Unaware, hstopping] using hlive
      · simp [EventCall.step, hagain, Unaware, hstopping]
    | leave op slot =>
      obtain rfl : op = .isClosed := hsound.2
      obtain ⟨k, rfl⟩ := Option.isSome_iff_exists.1 hstage
      simp [EventCall.step, EventCall.afterLock, Unaware]
    | finished reply => exact hstage.elim
    | fire | poll | register | waiting | unregister => simp [EventCall.Serves] at hsound
  | print sink rest =>
    cases rest with
    | nil => simp [Consumer.step, hs, Unaware, hstopping]
    | cons e rest =>
      simp only [Consumer.step, hs] at hcalm ⊢
      split
      · next hpanics => simp [hpanics] at hcalm
      · exact ⟨hstopping, trivial⟩
  | takeQueue call =>
    simp only [Consumer.step, hs]
    split <;> exact ⟨hstopping, trivial⟩
  | top =>
    simp only [Consumer.step, hs]
    split <;> exact ⟨hstopping, trivial⟩
  | awaitDump call =>
    simp only [Consumer.step, hs]
    split <;> exact ⟨hstopping, trivial⟩
  | choose =>
    simp only [Consumer.step, hs]
    split
    · exact ⟨hstopping, trivial⟩
    · split <;> exact ⟨hstopping, trivial⟩
  | idle call =>
    simp only [Consumer.step, hs]
    split <;> exact ⟨hstopping, trivial⟩
  | decide =>
    simp only [Consumer.step, hs, nextRound, hstopping]
    split
    · next h => cases h
    · split <;> exact ⟨rfl, trivial⟩
  | finish call | ended => simp [hs] at hstage
  | _ => exact ⟨by simp [Consumer.step, hs, hstopping], by simp [Consumer.step, hs]⟩

theorem Unaware.expire {c : Consumer} (h : c.Unaware) (p : Pipeline) : (c.expire p).Unaware := by
  unfold Consumer.expire
  split
  · exact ⟨h.1, trivial⟩
  · exact ⟨h.1, trivial⟩
  · exact h

theorem flushing_expire {c : Consumer} {p : Pipeline} (h : (c.expire p).Flushing) :
    c.Flushing := by
  unfold Consumer.expire at h
  split at h
  · exact h.elim
  · exact h.elim
  · exact h

/-- A consumer comes to its last round by taking the queue, and in it leaves the
queue alone. -/
theorem Sound.flushing_step {c : Consumer} (hsound : c.Sound) {p : Pipeline}
    (hcalm : (c.step p).2.panicked = false) (h : (c.step p).2.Flushing) :
    c.Flushing ∧ (c.step p).1.buffer.incoming = p.buffer.incoming ∨
      c.stage ≠ .ended ∧ (c.step p).1.buffer.incoming = [] := by
  unfold Sound at hsound
  cases hs : c.stage with
  | takeQueue call =>
    simp only [hs] at hsound
    obtain ⟨hnil, hfetches⟩ := hsound
    cases call with
    | enter op a =>
      cases op with
      | exchange entries room =>
        obtain ⟨rfl, ha⟩ := hfetches
        rcases SpinLock.attempt_of_budget_zero ha p.buffer.lock with hattempt | hattempt
        · exact .inr ⟨by simp, by
            simp [Consumer.step, hs, BufferCall.step, hattempt, RecordBuffer.perform]⟩
        · simp [Consumer.step, hs, BufferCall.step, hattempt, Flushing] at h
      | _ => exact hfetches.elim
    | publish reply =>
      simp only [Consumer.step, hs, BufferCall.step, Flushing] at h ⊢
      exact .inl ⟨h, trivial⟩
    | leave reply =>
      cases reply with
      | drained entries room =>
        simp only [Consumer.step, hs, BufferCall.step, Flushing] at h ⊢
        exact .inl ⟨h, trivial⟩
      | _ => exact hfetches.elim
    | _ => exact hfetches.elim
  | choose =>
    simp only [Consumer.step, hs] at h ⊢
    refine .inl ⟨?_, trivial⟩
    simp only [Flushing, hs]
    revert h
    split
    · exact id
    · split <;> exact id
  | print sink rest =>
    cases rest with
    | nil =>
      simp only [Consumer.step, hs, Flushing] at h ⊢
      exact .inl ⟨h, trivial⟩
    | cons e rest =>
      simp only [Consumer.step, hs] at hcalm h ⊢
      split at h
      · next hpanics => simp [hpanics] at hcalm
      · next hpanics =>
        rw [if_neg hpanics]
        exact .inl ⟨by simpa only [Flushing, hs] using h, rfl⟩
  | flush sink =>
    simp only [Consumer.step, hs, Flushing] at h ⊢
    refine .inl ⟨h, ?_⟩
    split <;> rfl
  | decide =>
    simp only [Consumer.step, hs, nextRound] at h ⊢
    refine .inl ⟨?_, trivial⟩
    simp only [Flushing, hs]
    revert h
    split
    · next hstopping => exact fun _ => hstopping
    · split <;> exact False.elim
  | checkStop call =>
    simp only [Consumer.step, hs] at h
    split at h
    · exact h.elim
    · exact h.elim
  | top =>
    simp only [Consumer.step, hs] at h
    revert h
    split <;> exact False.elim
  | awaitDump call =>
    simp only [Consumer.step, hs] at h
    revert h
    split <;> exact False.elim
  | idle call =>
    simp only [Consumer.step, hs] at h
    revert h
    split <;> exact False.elim
  | finish call =>
    simp only [Consumer.step, hs]
    exact .inl ⟨by simp [Flushing, hs], trivial⟩
  | ended => exact .inl ⟨by simp [Flushing, hs], by simp [Consumer.step, hs]⟩
  | dump =>
    simp only [Consumer.step, hs, Flushing] at h ⊢
    exact .inl ⟨h, rfl⟩
  | pickSink =>
    simp only [Consumer.step, hs, Flushing] at h ⊢
    exact .inl ⟨h, trivial⟩
  | seekSwitch | noteSwitch found => simp [Consumer.step, hs, Flushing] at h

end Consumer

/-- A task of a caller leaves the consumer to be stopped, takes it or starts a new
one. -/
theorem Task.step_worker (i : Nat) (p : Pipeline) (t : Task) :
    t = .spawn ∨ (t.step i p).pipeline.worker = p.worker ∨
      t = .takeWorker ∧ (t.step i p).pipeline.worker = none := by
  apply pipeline_cases (P := fun p' => t = spawn ∨ p'.worker = p.worker ∨
    t = takeWorker ∧ p'.worker = none)
  case spawn =>
    intro ht
    exact .inl ht
  case takeWorker =>
    intro ht
    exact .inr (.inr ⟨ht, rfl⟩)
  case onEvent =>
    intro name c _
    cases name <;> exact .inr (.inl rfl)
  case store =>
    intro setting _
    cases setting <;> exact .inr (.inl rfl)
  all_goals
    intros
    exact .inr (.inl rfl)

/-- A caller goes on from the wait for a consumer when it has ended. -/
theorem Task.step_join (i : Nat) (p : Pipeline) (k : Nat) :
    (∃ c, p.consumers[k]? = some c ∧ c.stage = .ended) ∧ (step i p (.join k)).next = [] ∧
        (step i p (.join k)).pipeline.worker = p.worker ∧
        (step i p (.join k)).pipeline.lifecycle = p.lifecycle ∧
        (step i p (.join k)).pipeline.consumers = p.consumers ∨
      step i p (.join k) = ⟨p, [.join k], none⟩ := by
  simp only [step]
  split
  · next hended =>
    refine .inl ⟨⟨_, hended, rfl⟩, rfl, ?_⟩
    split <;> exact ⟨rfl, rfl, rfl⟩
  · exact .inr rfl

namespace System

/-! ## All consumers -/

/-- While there is a consumer to be stopped, the pipeline is settled. -/
theorem Orderly.settled_of_worker {s : System} (h : s.Orderly) {k : Nat}
    (hk : s.pipeline.worker = some k) : s.pipeline.Settled := by
  cases hlock : s.pipeline.lifecycle with
  | none => exact h.settled hlock
  | some i =>
    obtain ⟨e, -, hfits⟩ := h.holder i hlock
    cases e with
    | checking | taking | leaving => exact hfits
    | _ => cases hfits.1.symm.trans hk

theorem Orderly.live_of_worker {s : System} (h : s.Orderly) {k : Nat}
    (hk : s.pipeline.worker = some k) : s.pipeline.stopEvent.live.isSome := by
  have hsettled := h.settled_of_worker hk
  simp only [Pipeline.Settled, hk] at hsettled
  exact hsettled.2

/-- After every run the consumer to be stopped has not seen that it is to stop, unless its
sink has panicked. -/
theorem unaware_run (world : World) (ms : List Move) :
    ∀ k c, (run world ms).pipeline.worker = some k →
      (run world ms).pipeline.consumers[k]? = some c → c.panicked = false → c.Unaware := by
  induction ms using List.reverseRecOn with
  | nil => exact fun k c hk => by cases hk
  | append_singleton ms m ih =>
    rw [run_concat]
    apply next_cases (P := fun s => ∀ k c, s.pipeline.worker = some k →
      s.pipeline.consumers[k]? = some c → c.panicked = false → c.Unaware)
    case nothing => exact ih
    case begin =>
      intro i call _ _
      exact ih
    case task =>
      intro i t rest _ k c hk hc hcalm
      simp only [afterTask, setCaller_pipeline] at hk hc
      rcases Task.step_consumers i (run world ms).pipeline t with he | ⟨rfl, he⟩
      · rw [he] at hc
        rcases Task.step_worker i (run world ms).pipeline t with rfl | hw | ⟨-, hw⟩
        · simp [Task.step] at he
        · exact ih k c (hw ▸ hk) hc hcalm
        · cases hw.symm.trans hk
      · cases hk
        rw [he, List.getElem?_concat_length] at hc
        cases hc
        exact Consumer.unaware_new
    case consumer =>
      intro j c hc k d hk hd hcalm
      simp only [afterConsumer, Consumer.step_worker, Consumer.step_consumers] at hk hd
      rcases getElem?_set_cases hc hd with ⟨rfl, rfl⟩ | ⟨-, hd⟩
      · exact (ih k c hk hc (Consumer.panicked_of_step hcalm)).step
          (sound_run world ms c (List.mem_of_getElem? hc))
          ((orderly_run world ms).live_of_worker hk) hcalm
      · exact ih k d hk hd hcalm
    case timer =>
      intro j c hc k d hk hd hcalm
      simp only [afterTimer] at hk hd
      rcases getElem?_set_cases hc hd with ⟨rfl, rfl⟩ | ⟨-, hd⟩
      · exact (ih k c hk hc (Consumer.panicked_expire _ c ▸ hcalm)).expire _
      · exact ih k d hk hd hcalm
    case outside =>
      intro w
      exact ih

/-! ## The last round -/

/-- Entries have left, or are in the hands of a consumer that has taken the queue for the
last time, unless its sink has panicked. -/
def Drains (k : Nat) (entries : List Entry) (s : System) (left : List Entry) : Prop :=
  ∀ c, s.pipeline.consumers[k]? = some c → c.panicked = false → c.Flushing →
    entries <+: left ++ c.unhandled

theorem drains_afterConsumer {s : System} {k : Nat} {entries accepted left : List Entry}
    (h : s.Drains k entries left) (hconserved : s.Conserved accepted left)
    (hentries : entries <+: accepted) (ho : s.Orderly)
    (hsound : ∀ c ∈ s.pipeline.consumers, c.Sound) {j : Nat} {c : Consumer}
    (hc : s.pipeline.consumers[j]? = some c) :
    (s.afterConsumer j c).Drains k entries
      (left ++ (c.departures s.pipeline).map Prod.fst) := by
  intro d hd hcalm hflushing
  have hcsound := hsound c (List.mem_of_getElem? hc)
  simp only [afterConsumer, Consumer.step_consumers] at hd
  rcases getElem?_set_cases hc hd with ⟨rfl, rfl⟩ | ⟨hkj, hd⟩
  · have hstep := hcsound.step_departures s.pipeline
    rcases hcsound.flushing_step hcalm hflushing with ⟨hbefore, hincoming⟩ | ⟨hne, hnil⟩
    · rw [hincoming] at hstep
      rw [List.append_assoc, List.append_cancel_right hstep]
      exact h c hc (Consumer.panicked_of_step hcalm) hbefore
    · -- it has just taken all that was queued
      have hafter := conserved_afterConsumer hconserved ho hsound hc
      have hinHand := ho.inHand_set hsound hc hne (c.step s.pipeline).2
      simp only [Conserved, Pipeline.inHand, afterConsumer, Consumer.step_consumers, hinHand, hnil,
        List.append_nil] at hafter
      rwa [hafter] at hentries
  · by_cases hs : c.stage = .ended
    · have hempty : c.departures s.pipeline = [] := by simp [Consumer.departures, hs]
      simpa [hempty] using h d hd hcalm hflushing
    · -- the other one has ended, and has nothing left in its hands
      have hended : d.stage = .ended := ho.ended_of_ne_last hd fun hk => hs <|
        ho.ended_of_ne_last hc fun hj => hkj (by omega)
      have hnil := Consumer.unhandled_of_ended (hsound d (List.mem_of_getElem? hd)) hended
      have hprefix := h d hd hcalm hflushing
      rw [hnil, List.append_nil] at hprefix ⊢
      exact hprefix.trans (List.prefix_append _ _)

/-- Entries that were accepted when a consumer had not seen that it is to stop have left, or
are in its hands, once it has taken the queue for the last time, unless its sink has
panicked. -/
theorem drains_run (world : World) (before after : List Move) {k : Nat}
    (hk : (run world before).pipeline.worker = some k) :
    (run world (before ++ after)).Drains k (ledger world before).accepted
      ((departed world (before ++ after)).map Prod.fst) := by
  induction after using List.reverseRecOn with
  | nil =>
    rw [List.append_nil]
    exact fun c hc hcalm hflushing =>
      ((unaware_run world before k c hk hc hcalm).not_flushing hflushing).elim
  | append_singleton after m ih =>
    rw [← List.append_assoc, run_concat, departed_concat, List.map_append]
    have hconserved := conserved_run world (before ++ after)
    have ho := orderly_run world (before ++ after)
    have hsound := sound_run world (before ++ after)
    have hentries := accepted_mono world before after
    apply next_entries_cases (P := fun s _ left => s.Drains k (ledger world before).accepted
      ((departed world (before ++ after)).map Prod.fst ++ left.map Prod.fst))
    case task =>
      intro i t rest _ c hc hcalm hflushing
      simp only [afterTask, setCaller_pipeline] at hc
      rw [List.map_nil, List.append_nil]
      rcases Task.step_consumers i (run world (before ++ after)).pipeline t with he | ⟨-, he⟩ <;>
        rw [he] at hc
      · exact ih c hc hcalm hflushing
      · rcases getElem?_concat_cases hc with hc | rfl
        · exact ih c hc hcalm hflushing
        · exact (Consumer.unaware_new.not_flushing hflushing).elim
    case consumer =>
      intro j c hc
      exact drains_afterConsumer ih hconserved hentries ho hsound hc
    case timer =>
      intro j c hc d hd hcalm hflushing
      rw [List.map_nil, List.append_nil]
      simp only [afterTimer] at hd
      rcases getElem?_set_cases hc hd with ⟨rfl, rfl⟩ | ⟨-, hd⟩
      · rw [Consumer.unhandled_expire]
        exact ih c hc (Consumer.panicked_expire _ c ▸ hcalm) (Consumer.flushing_expire hflushing)
      · exact ih d hd hcalm hflushing
    case begin =>
      intro i call _ _
      rwa [List.map_nil, List.append_nil]
    case nothing => rwa [List.map_nil, List.append_nil]
    case outside =>
      intro w
      rwa [List.map_nil, List.append_nil]

/-- Entries have been handed on, or are in the hands of a consumer that has taken
the queue for the last time. -/
def Flushed (k : Nat) (entries : List Entry) (s : System) (l : Ledger) : Prop :=
  ∀ c, s.pipeline.consumers[k]? = some c → c.Flushing →
    entries <+: l.handed.map Prod.fst ++ c.unhandled

/-- Entries that were accepted when a consumer had not seen that it is to stop have
been handed on, or are in its hands, once it has taken the queue for the last
time. -/
theorem flushed_run (world : World) (before after : List Move) {k : Nat}
    (hk : (run world before).pipeline.worker = some k)
    (hcalm : (run world (before ++ after)).pipeline.Calm) :
    (run world (before ++ after)).Flushed k (ledger world before).accepted
      (ledger world (before ++ after)) := by
  intro c hc hflushing
  rw [← map_fst_departed_of_calm world _ hcalm]
  exact drains_run world before after hk c hc (hcalm c (List.mem_of_getElem? hc)) hflushing

/-! ## The stop -/

/-- How far a stop has come that has taken a consumer. -/
inductive Stopping (i k : Nat) (s : System) : Prop where
  /-- It has yet to see that the consumer has ended. -/
  | waiting (first : List Task)
    (tasks : (s.caller i).tasks = first ++ [.join k, .unlockLifecycle])
  | leaving (tasks : (s.caller i).tasks = [.unlockLifecycle])
    (lifecycle : s.pipeline.lifecycle = some i) (worker : s.pipeline.worker = none)
    (ended : ∃ c, s.pipeline.consumers[k]? = some c ∧ c.stage = .ended)
  | returned (tasks : (s.caller i).tasks = [])
    (ended : ∃ c, s.pipeline.consumers[k]? = some c ∧ c.stage = .ended)

/-- A consumer that has ended stays so. -/
theorem ended_next {s : System} (m : Move) {k : Nat}
    (h : ∃ c, s.pipeline.consumers[k]? = some c ∧ c.stage = .ended) :
    ∃ c, (s.next m).pipeline.consumers[k]? = some c ∧ c.stage = .ended := by
  obtain ⟨c, hc, hs⟩ := h
  obtain ⟨d, hd, hcases⟩ := consumer_next hc m
  refine ⟨d, hd, ?_⟩
  rcases hcases with rfl | rfl | rfl
  · exact hs
  · rw [Consumer.step_of_ended hs]
    exact hs
  · rw [Consumer.expire_of_ended hs]
    exact hs

/-- While a caller holds the lifecycle lock, the steps of others leave it to it,
and there is no consumer to be stopped if there was none. -/
theorem Orderly.lifecycle_afterTask {s : System} (h : s.Orderly) {i j : Nat}
    (hlock : s.pipeline.lifecycle = some i) (hji : j ≠ i) {t : Task} {rest : List Task}
    (ht : (s.caller j).tasks = t :: rest) :
    (t.step j s.pipeline).pipeline.lifecycle = some i ∧
      (t.step j s.pipeline).pipeline.worker = s.pipeline.worker := by
  have hne : s.pipeline.lifecycle ≠ some j := by
    rw [hlock]
    simpa using hji.symm
  have hlocked : ∀ {t' : Task}, t' = .lockLifecycle →
      (t'.step j s.pipeline).pipeline.lifecycle = some i ∧
        (t'.step j s.pipeline).pipeline.worker = s.pipeline.worker := by
    rintro t' rfl
    simp [Task.step, hlock]
  rcases h.others j hne with htasks | htasks | hall
  · cases ht.symm.trans htasks
    exact hlocked rfl
  · cases ht.symm.trans htasks
    exact hlocked rfl
  · obtain ⟨hworker, hlifecycle, -⟩ := (hall t (ht ▸ List.mem_cons_self)).frame j s.pipeline
    exact ⟨hlifecycle.trans hlock, hworker⟩

/-- A stop that has taken a consumer goes on to its end, unless its caller begins
another call. -/
theorem Stopping.next {s : System} {i k : Nat} (h : Stopping i k s) (ho : s.Orderly) {m : Move}
    (hm : ∀ call, m ≠ .begin i call) : Stopping i k (s.next m) := by
  cases h with
  | waiting first tasks =>
    apply next_cases (P := Stopping i k)
    case begin =>
      intro j call hj _
      have hij : i ≠ j := fun hij => hm call (hij ▸ hj)
      exact .waiting first (by rw [setCaller_caller_of_ne _ _ hij]; exact tasks)
    case task =>
      intro j t rest ht
      by_cases hij : i = j
      · subst hij
        cases first with
        | cons t' first =>
          cases ht.symm.trans tasks
          exact .waiting ((t.step i s.pipeline).next ++ first) (by simp [afterTask])
        | nil =>
          cases ht.symm.trans tasks
          obtain ⟨e, he, hfits, hlock⟩ := ho.errand_of_task ht id (by simp)
          have hnone : s.pipeline.worker = none := by
            cases e <;> simp only [Errand.tasks, List.cons.injEq, reduceCtorEq, false_and] at he
            exact hfits.1
          rcases Task.step_join i s.pipeline k with ⟨hended, hnext, hw, hl, hcs⟩ | hstays
          · exact .leaving (by simp [afterTask, hnext]) (hl.trans hlock) (hw.trans hnone)
              (by simpa only [afterTask, setCaller_pipeline, hcs] using hended)
          · exact .waiting [] (by simp [afterTask, hstays])
      · exact .waiting first (by rw [afterTask, setCaller_caller_of_ne _ _ hij]; exact tasks)
    all_goals
      intros
      exact .waiting first tasks
  | leaving tasks lifecycle worker ended =>
    have hended := ended_next m ended
    revert hended
    apply next_cases (P := fun s' => (∃ c, s'.pipeline.consumers[k]? = some c ∧
      c.stage = .ended) → Stopping i k s')
    case begin =>
      intro j call hj _ hended
      have hij : i ≠ j := fun hij => hm call (hij ▸ hj)
      exact .leaving (by rw [setCaller_caller_of_ne _ _ hij]; exact tasks) lifecycle worker hended
    case task =>
      intro j t rest ht hended
      by_cases hij : i = j
      · subst hij
        cases ht.symm.trans tasks
        exact .returned (by simp [afterTask, Task.step]) hended
      · obtain ⟨hlock, hworker⟩ := ho.lifecycle_afterTask lifecycle (Ne.symm hij) ht
        exact .leaving (by rw [afterTask, setCaller_caller_of_ne _ _ hij]; exact tasks) hlock
          (hworker.trans worker) hended
    case consumer =>
      intro j c _ hended
      exact .leaving tasks (by simp [afterConsumer, lifecycle]) (by simp [afterConsumer, worker])
        hended
    all_goals
      intros
      exact .leaving tasks lifecycle worker (by assumption)
  | returned tasks ended =>
    have hended := ended_next m ended
    revert hended
    apply next_cases (P := fun s' => (∃ c, s'.pipeline.consumers[k]? = some c ∧
      c.stage = .ended) → Stopping i k s')
    case begin =>
      intro j call hj _ hended
      have hij : i ≠ j := fun hij => hm call (hij ▸ hj)
      exact .returned (by rw [setCaller_caller_of_ne _ _ hij]; exact tasks) hended
    case task =>
      intro j t rest ht hended
      have hij : i ≠ j := by
        rintro rfl
        cases tasks.symm.trans ht
      exact .returned (by rw [afterTask, setCaller_caller_of_ne _ _ hij]; exact tasks) hended
    all_goals
      intros
      exact .returned tasks (by assumption)

/-- A run in which a stop takes a consumer and returns with the last move: the
moves before the call, those until the consumer is taken, and those after it. -/
def stopMoves (i : Nat) (before waiting after : List Move) : List Move :=
  before ++ .begin i .stop :: waiting ++ .act (.caller i) :: after ++ [.act (.caller i)]

/-- What makes it such a run. -/
structure StopRun (world : World) (i : Nat) (before waiting after : List Move) : Prop where
  /-- The caller has nothing to do and begins to stop the pipeline. -/
  idle : ((run world before).caller i).tasks = []
  /-- It comes to take the consumer, and there is one. -/
  taking : ((run world (before ++ .begin i .stop :: waiting)).caller i).tasks =
    [.takeWorker, .unlockLifecycle]
  worker : (run world (before ++ .begin i .stop :: waiting)).pipeline.worker.isSome
  /-- It begins no other call until it returns. -/
  alone : ∀ call, Move.begin i call ∉ waiting ++ after
  busy : ((run world (before ++ .begin i .stop :: waiting ++
    .act (.caller i) :: after)).caller i).tasks ≠ []
  returned : ((run world (stopMoves i before waiting after)).caller i).tasks = []

/-- A stop that has taken a consumer is at some point on its way. -/
theorem stopping_run {world : World} {i k : Nat} {front : List Move} (after : List Move)
    (htaking : ((run world front).caller i).tasks = [.takeWorker, .unlockLifecycle])
    (hk : (run world front).pipeline.worker = some k)
    (halone : ∀ call, Move.begin i call ∉ after) :
    Stopping i k (run world (front ++ .act (.caller i) :: after)) := by
  induction after using List.reverseRecOn with
  | nil =>
    rw [run_concat, next, step_caller_of_cons htaking]
    refine .waiting [.onEvent .stop (.start .close), .onEvent .dump (.start .close),
      .onEvent .done (.start (.wait .untimed))] ?_
    simp [afterTask, Task.step, hk, Task.stopTasks]
  | append_singleton after m ih =>
    rw [← List.cons_append, ← List.append_assoc, run_concat]
    refine (ih fun call hmem => halone call (by simp [hmem])).next (orderly_run world _) ?_
    rintro call rfl
    exact halone call (by simp)

/-- When a stop that has taken a consumer returns, that consumer has ended. -/
theorem StopRun.ended {world : World} {i k : Nat} {before waiting after : List Move}
    (h : StopRun world i before waiting after)
    (hk : (run world (before ++ .begin i .stop :: waiting)).pipeline.worker = some k) :
    ∃ c, (run world (stopMoves i before waiting after)).pipeline.consumers[k]? = some c ∧
      c.stage = .ended := by
  have hreturned := h.returned
  have halone : ∀ call, Move.begin i call ∉ after ++ [.act (.caller i)] := fun call hmem =>
    h.alone call (List.mem_append_right _ (by simpa using hmem))
  have hstop := stopping_run _ h.taking hk halone
  rw [stopMoves, List.append_assoc, List.cons_append] at hreturned ⊢
  cases hstop with
  | waiting first tasks => exact absurd (tasks.symm.trans hreturned) (by simp)
  | leaving tasks => cases tasks.symm.trans hreturned
  | returned tasks ended => exact ended

/-- When a stop that has taken a consumer returns, there is none to be stopped, and all have
ended. -/
theorem StopRun.stopped {world : World} {i : Nat} {before waiting after : List Move}
    (h : StopRun world i before waiting after) :
    (run world (stopMoves i before waiting after)).pipeline.worker = none ∧
      (run world (stopMoves i before waiting after)).pipeline.AllEnded := by
  obtain ⟨k, hk⟩ := Option.isSome_iff_exists.1 h.worker
  have hreturned := h.returned
  have halone : ∀ call, Move.begin i call ∉ after := fun call hmem =>
    h.alone call (List.mem_append_right _ hmem)
  rw [stopMoves, run_concat] at hreturned ⊢
  cases stopping_run after h.taking hk halone with
  | waiting first tasks =>
    obtain ⟨t, rest, ht, hrest⟩ : ∃ t rest, first ++ [.join k, .unlockLifecycle] = t :: rest ∧
        rest ≠ [] := by
      cases first with
      | nil => exact ⟨_, _, rfl, by simp⟩
      | cons t first => exact ⟨t, _, rfl, by simp⟩
    rw [next, step_caller_of_cons (tasks.trans ht)] at hreturned
    simp [afterTask, hrest] at hreturned
  | leaving tasks lifecycle worker ended =>
    have ho := orderly_run world (before ++ .begin i .stop :: waiting ++ .act (.caller i) :: after)
    obtain ⟨e, he, hfits⟩ := ho.holder i lifecycle
    rw [next, step_caller_of_cons tasks]
    rw [tasks] at he
    cases e <;> simp only [Errand.tasks, List.cons.injEq, reduceCtorEq, false_and] at he
    simp only [Errand.Fits, Pipeline.Settled, worker] at hfits
    exact ⟨worker, hfits⟩
  | returned tasks ended => exact (h.busy tasks).elim

/-- When a stop that has taken a consumer returns, all consumers have ended. -/
theorem StopRun.allEnded {world : World} {i : Nat} {before waiting after : List Move}
    (h : StopRun world i before waiting after) :
    (run world (stopMoves i before waiting after)).pipeline.AllEnded := h.stopped.2

/-- When a stop that has taken a consumer returns, and no sink has panicked, every
entry accepted before the stop was called has been printed, or has left with a dump;
every other accepted entry has left so too, or is still queued; and the lines, the
files and the count of dropped entries show it. -/
theorem stop_flushes {world : World} {i : Nat} {before waiting after : List Move}
    (h : StopRun world i before waiting after)
    (hcalm : (run world (stopMoves i before waiting after)).pipeline.Calm) :
    let ms := stopMoves i before waiting after
    (ledger world before).accepted <+: (departed world ms).map Prod.fst ∧
      (ledger world ms).accepted =
        (departed world ms).map Prod.fst ++ (run world ms).pipeline.buffer.incoming ∧
      (∀ x ∈ departed world ms, (∃ sink, x.2 = .printed sink) ∨ x.2.isDump = true) ∧
      Shows world ms := by
  intro ms
  obtain ⟨k, hk⟩ := Option.isSome_iff_exists.1 h.worker
  have hunhandled : ∀ c ∈ (run world ms).pipeline.consumers, c.unhandled = [] := fun c hc =>
    Consumer.unhandled_of_ended (sound_run world ms c hc) (h.allEnded c hc)
  refine ⟨?_, ?_, fun x hx => ?_, shows_run world ms⟩
  · -- the consumer that the stop has taken has ended, and had taken the queue before
    have hsplit : ms = before ++ .begin i .stop :: waiting ++
        (.act (.caller i) :: after ++ [.act (.caller i)]) := by simp [ms, stopMoves]
    have hbefore : (ledger world before).accepted <+:
        (ledger world (before ++ .begin i .stop :: waiting)).accepted := by
      rw [ledger, ledger, ledgerFrom_append, Ledger.accepted_append]
      exact List.prefix_append _ _
    have hflushed := flushed_run world _ _ hk (by rw [← hsplit]; exact hcalm)
    rw [← hsplit] at hflushed
    obtain ⟨c, hc, hs⟩ := h.ended hk
    have hprefix := hflushed c hc (by simp [Consumer.Flushing, hs])
    rw [hunhandled c (List.mem_of_getElem? hc), List.append_nil] at hprefix
    rw [map_fst_departed_of_calm world ms hcalm]
    exact hbefore.trans hprefix
  · have hconserved := conserved_run world ms
    rwa [Conserved, Pipeline.inHand, List.flatMap_eq_nil_iff.2 hunhandled,
      List.append_nil] at hconserved
  · have hkept := not_discarded_of_calm world ms hcalm x hx
    cases hd : x.2 with
    | printed sink => exact .inl ⟨sink, rfl⟩
    | discarded => exact (hkept hd).elim
    | written path | spilled path | lost => exact .inr rfl

/-- A consumer is started, an entry is queued, and a stop has it printed. -/
theorem stop_flushes_of_queued :
    let world := World.calm ⟨[], []⟩ fun _ => 0
    let before : List Move := .begin 1 .start :: List.replicate 20 (.act (.caller 1)) ++
      .begin 0 (.log ⟨.info, "a", [], ⟨"f", 1⟩⟩) :: List.replicate 8 (.act (.caller 0))
    let waiting : List Move := [.act (.caller 2)]
    let after : List Move := List.replicate 6 (.act (.caller 2)) ++
      List.replicate 30 (.act (.consumer 0)) ++ List.replicate 3 (.act (.caller 2))
    StopRun world 2 before waiting after ∧ (ledger world before).accepted.length = 1 ∧
      (run world (stopMoves 2 before waiting after)).pipeline.printed.length = 1 ∧
      (ledger world before).accepted <+:
        (departed world (stopMoves 2 before waiting after)).map Prod.fst := by
  intro world before waiting after
  -- neither task has data, so the places of their constructors tell them
  have htaking : ∀ tasks : List Task,
      tasks.map Task.ctorIdx = [Task.takeWorker.ctorIdx, Task.unlockLifecycle.ctorIdx] →
      tasks = [.takeWorker, .unlockLifecycle] := by
    intro tasks h
    obtain ⟨t, rest, rfl, ht, hrest⟩ := List.map_eq_cons_iff.1 h
    obtain ⟨t', rest', rfl, ht', hnil⟩ := List.map_eq_cons_iff.1 hrest
    obtain rfl := List.map_eq_nil_iff.1 hnil
    have htake : t = .takeWorker := by cases t <;> first | rfl | cases ht
    have hunlock : t' = .unlockLifecycle := by cases t' <;> first | rfl | cases ht'
    rw [htake, hunlock]
  have hrun : StopRun world 2 before waiting after := by
    refine ⟨List.isEmpty_iff.1 (by decide +kernel), htaking _ (by decide +kernel),
      by decide +kernel, ?_, List.isEmpty_eq_false_iff.1 (by decide +kernel),
      List.isEmpty_iff.1 (by decide +kernel)⟩
    simp [waiting, after]
  have hcalm : (run world (stopMoves 2 before waiting after)).pipeline.Calm := by
    unfold Pipeline.Calm
    decide +kernel
  exact ⟨hrun, by decide +kernel, by decide +kernel, (stop_flushes hrun hcalm).1⟩

end System

end LogPipeline
