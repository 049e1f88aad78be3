import LogPipeline.Proofs.Panics

/-!
# Runs in which sinks panic

When a sink has panicked, stops still return, and the pipeline can be started again
(`restarted_run`). No entry is printed twice (`lines_once`). What was queued at the panic, or is
accepted later, leaves in order (`due_run`), and all of it can leave through sinks that do not panic
(`leads_to_delivered`).
`every_run_contains_panics` gathers what runs keep to, however their sinks panic.
-/

namespace LogPipeline

open Sync

/-! ## What is delivered -/

/-- A consumer that has not seen that it is to stop goes on with its rounds. -/
theorem Consumer.Unaware.inLoop {c : Consumer} (h : c.Unaware) :
    c.stage.BeforeQueue ∨ c.stage.InRound := by
  obtain ⟨-, hstage⟩ := h
  cases hs : c.stage <;> simp_all [ConsumerStage.BeforeQueue, ConsumerStage.InRound]

namespace System

/-- What was queued after some moves, and what has been accepted in the moves since. -/
def due (world : World) (front later : List Move) : List Entry :=
  (run world front).pipeline.buffer.incoming ++ ((run world front).ledgerFrom later).accepted

section Due

variable {world : World} {front : List Move} (hnil : (run world front).pipeline.inHand = [])
include hnil

theorem accepted_eq_due (later : List Move) : (ledger world (front ++ later)).accepted =
    (departed world front).map Prod.fst ++ due world front later := by
  rw [ledger_append, Ledger.accepted_append, conserved_run world front, hnil, List.append_nil,
    due, List.append_assoc]

/-- What is due leaves in order. -/
theorem due_run (later : List Move) : due world front later =
    ((run world front).departedFrom later).map Prod.fst ++
      (run world (front ++ later)).pipeline.inHand ++
      (run world (front ++ later)).pipeline.buffer.incoming := by
  have h := conserved_run world (front ++ later)
  rw [Conserved, accepted_eq_due hnil, departed_append, List.map_append] at h
  simpa only [List.append_assoc, List.append_cancel_left_eq] using h

/-- What was accepted has left if what was due has. -/
theorem due_prefix_iff {later more : List Move} :
    due world front later <+: ((run world front).departedFrom (later ++ more)).map Prod.fst ↔
      (ledger world (front ++ later)).accepted <+:
        (departed world (front ++ later ++ more)).map Prod.fst := by
  rw [accepted_eq_due hnil, List.append_assoc front, departed_append, List.map_append,
    List.prefix_append_right_inj]

end Due

/-- The consumer to be stopped has met no sink that panicked. -/
theorem Steady.exists_worker {s : System} (h : s.Steady) (ho : s.Orderly) {k : Nat}
    (hk : s.pipeline.worker = some k) :
    ∃ c, s.pipeline.consumers[k]? = some c ∧ c.panicked = false := by
  have hsettled := ho.settled_of_worker hk
  simp only [Pipeline.Settled, hk] at hsettled
  have hlt : k < s.pipeline.consumers.length := by
    have := hsettled.1.1
    omega
  have hc := List.getElem?_eq_getElem hlt
  exact ⟨_, hc, h.worker k _ hk hc⟩

/-- At the end of a round with nothing queued, all that has been accepted has left. -/
theorem accepted_of_decides {world : World} {ms : List Move} {k : Nat} {c : Consumer}
    (hc : (run world ms).pipeline.consumers[k]? = some c) (hs : c.stage = .decide)
    (hnil : (run world ms).pipeline.buffer.incoming = []) :
    (ledger world ms).accepted = (departed world ms).map Prod.fst := by
  have hsound := sound_run world ms
  have hdraining := hsound c (List.mem_of_getElem? hc)
  simp only [Consumer.Sound, hs] at hdraining
  have hinHand : (run world ms).pipeline.inHand = [] := by
    rw [(orderly_run world ms).inHand_eq hsound hc (by simp [hs])]
    simp [Consumer.unhandled, Consumer.taken, hs, hdraining]
  have hconserved := conserved_run world ms
  rwa [Conserved, hinHand, hnil, List.append_nil, List.append_nil] at hconserved

/-- While no sink panics, all that has been accepted can leave, as long as there is a consumer to
be stopped. -/
theorem leads_to_delivered {world : World} {ms : List Move} (h : (run world ms).Steady) {k : Nat}
    (hk : (run world ms).pipeline.worker = some k) :
    ∃ actors : List Actor, (ledger world ms).accepted <+:
      (departed world (ms ++ actors.map .act)).map Prod.fst := by
  -- with no lock held, the consumer goes on alone
  obtain ⟨first, hunlocked, hworker⟩ := leads_to_unlocked world ms
  rw [hk] at hworker
  have hfirst : (run world (ms ++ first.map .act)).Steady := by
    rw [run_append]
    exact h.runFrom (Move.steady_acts first)
  obtain ⟨c, hc, hcalm⟩ := hfirst.exists_worker (orderly_run world _) hworker
  have hunaware := unaware_run world _ k c hworker hc hcalm
  have hdrained := (sound_run world _ c (List.mem_of_getElem? hc)).comes_to_drained hunlocked
    hunaware.1 hunaware.inLoop
  obtain ⟨second, d, hd, hdone⟩ := leads_alone hdrained hc ⟨_, rfl⟩ fun _ _ _ => id
  -- and no sink panics meanwhile
  obtain ⟨d', hd', hcalm'⟩ := hfirst.calm_from (Move.steady_acts second) ⟨c, hc, hcalm⟩
  rw [← run_append] at hd'
  cases hd.symm.trans hd'
  obtain ⟨hnil, hs⟩ := hdone.resolve_right (by simp [hcalm'])
  refine ⟨first ++ second, ?_⟩
  rw [List.map_append, ← List.append_assoc, ← accepted_of_decides hd hs hnil]
  exact (accepted_mono world ms _).trans (accepted_mono world _ _)

/-- When a stop returns and no sink will panic, what was accepted before it was called has left, and
all else is queued. -/
theorem StopRun.drains {world : World} {i : Nat} {before waiting after : List Move}
    (h : StopRun world i before waiting after) (hsteady : (run world before).Steady)
    (hmoves : ∀ m ∈ waiting ++ after, m.Steady) :
    (ledger world before).accepted <+:
        (departed world (stopMoves i before waiting after)).map Prod.fst ∧
      (ledger world (stopMoves i before waiting after)).accepted =
        (departed world (stopMoves i before waiting after)).map Prod.fst ++
          (run world (stopMoves i before waiting after)).pipeline.buffer.incoming := by
  obtain ⟨k, hk⟩ := Option.isSome_iff_exists.1 h.worker
  have hsound := sound_run world (stopMoves i before waiting after)
  have hunhandled : ∀ c ∈ (run world (stopMoves i before waiting after)).pipeline.consumers,
      c.unhandled = [] := fun c hc =>
    Consumer.unhandled_of_ended (hsound c hc) (h.allEnded c hc)
  obtain ⟨c, hc, hs⟩ := h.ended hk
  have hsplit : stopMoves i before waiting after = before ++ .begin i .stop :: waiting ++
      (.act (.caller i) :: after ++ [.act (.caller i)]) := by simp [stopMoves]
  constructor
  · have htaken : (run world (before ++ .begin i .stop :: waiting)).Steady := by
      rw [run_append]
      refine hsteady.runFrom fun m hm => ?_
      rcases List.mem_cons.1 hm with rfl | hm
      · trivial
      · exact hmoves m (List.mem_append_left _ hm)
    -- the consumer that the stop has taken goes on to its end
    have hrest : ∀ m ∈ .act (.caller i) :: after ++ [.act (.caller i)], m.Steady := fun m hm => by
      simp only [List.mem_append, List.mem_cons, List.not_mem_nil, or_false] at hm
      rcases hm with (rfl | hm) | rfl
      · trivial
      · exact hmoves m (List.mem_append_right _ hm)
      · trivial
    obtain ⟨d, hd, hcalm⟩ :=
      htaken.calm_from hrest (htaken.exists_worker (orderly_run world _) hk)
    rw [← run_append, ← hsplit] at hd
    cases hc.symm.trans hd
    have hdrains := drains_run world (before ++ .begin i .stop :: waiting)
      (.act (.caller i) :: after ++ [.act (.caller i)]) hk
    rw [← hsplit] at hdrains
    have hdone := hdrains c hc hcalm (by simp [Consumer.Flushing, hs])
    rw [hunhandled c (List.mem_of_getElem? hc), List.append_nil] at hdone
    exact (accepted_mono world before _).trans hdone
  · have hconserved := conserved_run world (stopMoves i before waiting after)
    rwa [Conserved, Pipeline.inHand, List.flatMap_eq_nil_iff.2 hunhandled,
      List.append_nil] at hconserved

/-! ## Starting again -/

/-- A consumer that is to be stopped, while there was none to be stopped before, has been started
since. -/
theorem started_since {world : World} {front : List Move}
    (hnone : (run world front).pipeline.worker = none) (later : List Move) {k : Nat}
    (hk : (run world (front ++ later)).pipeline.worker = some k) :
    (run world front).pipeline.consumers.length ≤ k := by
  induction later using List.reverseRecOn generalizing k with
  | nil =>
    rw [List.append_nil] at hk
    cases hnone.symm.trans hk
  | append_singleton later m ih =>
    rw [← List.append_assoc, run_concat] at hk
    have hlength : (run world front).pipeline.consumers.length ≤
        (run world (front ++ later)).pipeline.consumers.length :=
      le_of_forall_lt fun n hn => by
        obtain ⟨c, hc⟩ := consumer_run hn later
        exact (List.getElem?_eq_some_iff.1 hc).1
    revert hk
    apply next_cases (P := fun s => s.pipeline.worker = some k →
      (run world front).pipeline.consumers.length ≤ k)
    case task =>
      intro i t rest _ hk
      rcases t.step_worker i (run world (front ++ later)).pipeline with rfl | hw | ⟨-, hw⟩
      · cases hk
        exact hlength
      · exact ih (hw.symm.trans hk)
      · cases hw.symm.trans hk
    case consumer =>
      intro j c _ hk
      exact ih (by simpa [afterConsumer] using hk)
    all_goals
      intros
      exact ih (by assumption)

/-- A start that has returned has started a consumer, unless another start has done so since there
was none to be stopped. -/
theorem restarted_run {world : World} {front between moves : List Move} {j : Nat}
    (hnone : (run world front).pipeline.worker = none)
    (hidle : ((run world (front ++ between)).caller j).tasks = [])
    (halone : ∀ call, Move.begin j call ∉ moves)
    (hreturned : ((run world (front ++ between ++ .begin j .start :: moves)).caller j).tasks = []) :
    let reply := ((run world (front ++ between ++ .begin j .start :: moves)).caller j).reply
    (reply = some .started ∧ ∃ first rest, moves = first ++ rest ∧
        Launches world j (front ++ between ++ .begin j .start :: first) rest) ∨
      reply = some .alreadyRunning ∧
        ∃ look k, look <+: front ++ between ++ .begin j .start :: moves ∧
          (run world look).pipeline.worker = some k ∧
          (run world front).pipeline.consumers.length ≤ k := by
  obtain ⟨waiting, after, hmoves, -, -, hrefused, hstarted⟩ :=
    answered_run hidle halone hreturned
  cases hk : (run world (front ++ between ++ .begin j .start :: waiting)).pipeline.worker with
  | none =>
    obtain ⟨hreply, hlaunches⟩ := hstarted hk
    exact .inl ⟨hreply, waiting ++ [.act (.caller j)], after, by simp [hmoves],
      by simpa using hlaunches⟩
  | some k =>
    refine .inr ⟨hrefused (by rw [hk]; rfl), _, k, ?_, hk, ?_⟩
    · exact ⟨.act (.caller j) :: after, by simp [hmoves]⟩
    · rw [List.append_assoc] at hk
      exact started_since hnone _ hk

end System

/-! ## Lines -/

/-- The places of a list from which the members of another list are made, in order. -/
theorem places_filterMap {α β : Type} (f : α → Option β) (l : List α) :
    ∃ places : List Nat, places.Pairwise (· < ·) ∧ (∀ n ∈ places, n < l.length) ∧
      List.Forall₂ (fun n b => ∃ a, l[n]? = some a ∧ f a = some b) places (l.filterMap f) := by
  induction l using List.reverseRecOn with
  | nil => exact ⟨[], .nil, by simp, .nil⟩
  | append_singleton l a ih =>
    obtain ⟨places, hpairwise, hlt, hplaces⟩ := ih
    have hstays : List.Forall₂ (fun n b => ∃ a', (l ++ [a])[n]? = some a' ∧ f a' = some b) places
        (l.filterMap f) := by
      refine hplaces.imp fun n b h => ?_
      obtain ⟨a', ha', hf⟩ := h
      obtain ⟨hn, -⟩ := List.getElem?_eq_some_iff.1 ha'
      exact ⟨a', by rwa [List.getElem?_append_left hn], hf⟩
    cases hf : f a with
    | none =>
      refine ⟨places, hpairwise, fun n hn => ?_, by simpa [hf] using hstays⟩
      simpa using Nat.lt_succ_of_lt (hlt n hn)
    | some b =>
      refine ⟨places ++ [l.length], ?_, ?_, ?_⟩
      · rw [List.pairwise_append]
        refine ⟨hpairwise, List.pairwise_singleton _ _, fun n hn n' hn' => ?_⟩
        rw [List.mem_singleton.1 hn']
        exact hlt n hn
      · intro n hn
        rcases List.mem_append.1 hn with hn | hn
        · simpa using Nat.lt_succ_of_lt (hlt n hn)
        · simp [List.mem_singleton.1 hn]
      · rw [List.filterMap_append, List.filterMap_cons, hf, List.filterMap_nil]
        exact List.rel_append hstays (.cons ⟨a, by simp, hf⟩ .nil)

namespace System

/-- Each line is that of an accepted entry, and none is that of an entry before it. -/
theorem lines_once (world : World) (ms : List Move) :
    ∃ places : List Nat, places.Pairwise (· < ·) ∧
      List.Forall₂ (fun n line => ∃ e sink, (ledger world ms).accepted[n]? = some e ∧
          (departed world ms)[n]? = some (e, .printed sink) ∧
          line = .line sink.channel e.level (sink.textOf e))
        places ((run world ms).pipeline.printed.reverse.filter Printed.isLine) := by
  obtain ⟨places, hpairwise, -, hplaces⟩ :=
    places_filterMap (fun x : Entry × Departure => x.2.line? x.1) (departed world ms)
  refine ⟨places, hpairwise, ?_⟩
  rw [printed_run, lines_departed]
  refine hplaces.imp fun n line h => ?_
  obtain ⟨⟨e, d⟩, hn, hline⟩ := h
  cases d with
  | printed sink =>
    refine ⟨e, sink, ?_, hn, (Option.some.inj hline).symm⟩
    obtain ⟨hlt, -⟩ := List.getElem?_eq_some_iff.1 hn
    rw [conserved_run world ms, List.append_assoc, List.getElem?_append_left (by simpa using hlt)]
    simp [hn]
  | _ => cases hline

/-! ## All runs -/

/-- What follows for what was queued after `front` and what has been accepted since, if no sink has
panicked in `since`, and none will in `later`. -/
structure Recovers (world : World) (front since later : List Move) : Prop where
  /-- Nothing of it is discarded. -/
  kept : ∀ x ∈ (run world front).departedFrom (since ++ later), x.2 ≠ .discarded
  /-- It leaves in the order in which it was queued. -/
  ordered : due world front (since ++ later) =
    ((run world front).departedFrom (since ++ later)).map Prod.fst ++
      (run world (front ++ (since ++ later))).pipeline.inHand ++
      (run world (front ++ (since ++ later))).pipeline.buffer.incoming
  /-- All of it can leave, and none of it is discarded then, as long as a consumer runs. -/
  delivers : ∀ k, (run world (front ++ (since ++ later))).pipeline.worker = some k →
    ∃ actors : List Actor,
      due world front (since ++ later) <+:
          ((run world front).departedFrom (since ++ later ++ actors.map .act)).map Prod.fst ∧
        ∀ x ∈ (run world front).departedFrom (since ++ later ++ actors.map .act),
          x.2 ≠ .discarded
  /-- When a stop returns, what was accepted before it was called has left, and all else is
  queued. -/
  flushes : ∀ i mid waiting after,
    later = mid ++ .begin i .stop :: waiting ++ .act (.caller i) :: after ++ [.act (.caller i)] →
    StopRun world i (front ++ (since ++ mid)) waiting after →
    due world front (since ++ mid) <+:
        ((run world front).departedFrom (since ++ later)).map Prod.fst ∧
      due world front (since ++ later) =
        ((run world front).departedFrom (since ++ later)).map Prod.fst ++
          (run world (front ++ (since ++ later))).pipeline.buffer.incoming

theorem recovers_run {world : World} {front since later : List Move}
    (hnil : (run world front).pipeline.inHand = [])
    (hsince : ∀ x ∈ (run world front).departedFrom since, x.2 ≠ .discarded)
    (hsteady : (run world (front ++ since)).Steady) (hlater : ∀ m ∈ later, m.Steady) :
    Recovers world front since later := by
  have hkept : ∀ later, (∀ m ∈ later, m.Steady) →
      ∀ x ∈ (run world front).departedFrom (since ++ later), x.2 ≠ .discarded :=
    fun later hlater x hx => by
    rw [departedFrom_append, ← run_append] at hx
    rcases List.mem_append.1 hx with hx | hx
    · exact hsince x hx
    · exact hsteady.not_discarded_from hlater x hx
  refine ⟨hkept later hlater, due_run hnil _, fun k hk => ?_, fun i mid waiting after hsplit h => ?_⟩
  · have hafter : (run world (front ++ (since ++ later))).Steady := by
      rw [← List.append_assoc, run_append]
      exact hsteady.runFrom hlater
    obtain ⟨actors, hdone⟩ := leads_to_delivered hafter hk
    refine ⟨actors, (due_prefix_iff hnil).2 hdone, ?_⟩
    rw [List.append_assoc]
    refine hkept _ fun m hm => ?_
    exact (List.mem_append.1 hm).elim (hlater m) (Move.steady_acts actors m)
  · have hmoves : ∀ m ∈ mid ++ (waiting ++ after), m.Steady := fun m hm => by
      refine hlater m (hsplit ▸ ?_)
      simp only [List.mem_append, List.mem_cons] at hm ⊢
      tauto
    have hbefore : (run world (front ++ (since ++ mid))).Steady := by
      rw [← List.append_assoc, run_append]
      exact hsteady.runFrom fun m hm => hmoves m (List.mem_append_left _ hm)
    obtain ⟨hdone, hrest⟩ := h.drains hbefore fun m hm => hmoves m (List.mem_append_right _ hm)
    have hms : stopMoves i (front ++ (since ++ mid)) waiting after =
        front ++ (since ++ later) := by
      simp [stopMoves, hsplit]
    rw [hms] at hdone hrest
    rw [accepted_eq_due hnil, departed_append, List.map_append] at hdone hrest
    rw [List.append_assoc, List.append_cancel_left_eq] at hrest
    exact ⟨(List.prefix_append_right_inj _).1 hdone, hrest⟩

/-- What a run keeps to in which sinks may panic at any lines. A sink goes by how much its channel
holds; one that goes by anything else is, from one batch to the next, another sink that a caller
sets. -/
structure ContainsPanics (world : World) (ms : List Move) : Prop where
  /-- A stop that has begun can return, whatever has become of the consumer. -/
  stops : ∀ i before moves, ms = before ++ .begin i .stop :: moves →
    ((run world before).caller i).tasks = [] → (∀ call, Move.begin i call ∉ moves) →
    Leads world ms fun s => (s.caller i).tasks = []
  /-- When a stop that has taken a consumer returns, all consumers have ended. No sink will panic
  from then on if the one in use does not, and none is about to be set that may. -/
  stopped : ∀ i before waiting after, ms = stopMoves i before waiting after →
    StopRun world i before waiting after →
    (run world ms).pipeline.worker = none ∧ (run world ms).pipeline.AllEnded ∧
      ((run world ms).pipeline.sink.Steady →
        (∀ j sink, .store (.sink sink) ∈ ((run world ms).caller j).tasks → sink.Steady) →
        (run world ms).Steady)
  /-- From where there is no consumer to be stopped, a start can return, and has then started a
  consumer, unless another start had done so before. -/
  starts : ∀ j front between moves, ms = front ++ between ++ .begin j .start :: moves →
    (run world front).pipeline.worker = none →
    ((run world (front ++ between)).caller j).tasks = [] → (∀ call, Move.begin j call ∉ moves) →
    (Leads world ms fun s => (s.caller j).tasks = []) ∧
      (((run world ms).caller j).tasks = [] →
        (((run world ms).caller j).reply = some .started ∧ ∃ first rest, moves = first ++ rest ∧
            Launches world j (front ++ between ++ .begin j .start :: first) rest) ∨
          ((run world ms).caller j).reply = some .alreadyRunning ∧
            ∃ look k, look <+: ms ∧ (run world look).pipeline.worker = some k ∧
              (run world front).pipeline.consumers.length ≤ k)
  /-- The accepted entries are those that have left, those in hand and those queued, in this
  order. -/
  conserved : (ledger world ms).accepted = (departed world ms).map Prod.fst ++
    (run world ms).pipeline.inHand ++ (run world ms).pipeline.buffer.incoming
  /-- Each line that sinks have written is that of an accepted entry, and no two are of the same:
  their places among the accepted entries increase. -/
  once : ∃ places : List Nat, places.Pairwise (· < ·) ∧
    List.Forall₂ (fun n line => ∃ e sink, (ledger world ms).accepted[n]? = some e ∧
        (departed world ms)[n]? = some (e, .printed sink) ∧
        line = .line sink.channel e.level (sink.textOf e))
      places ((run world ms).pipeline.printed.reverse.filter Printed.isLine)
  /-- How entries have left is shown by the lines, the files and the count of dropped entries. -/
  shows : Shows world ms
  /-- Entries are discarded only with a panic: the one at which the sink panics and those drained
  with it that are yet to be printed, all of them. The queue stays as it is, and the consumer goes
  on to say that it has ended. -/
  discards : ∀ before m, ms = before ++ [m] →
    ∀ x ∈ (run world before).departedOf m, x.2 = .discarded →
    ∃ j sink printed rest, m = .act (.consumer j) ∧
      Panic (run world before) (departed world before) j sink printed rest ∧
      (run world before).departedOf m = (rest.map fun e => (e, .discarded)) ∧
      (run world ms).pipeline.inHand = [] ∧
      ∃ c, (run world ms).pipeline = { (run world before).pipeline with
          consumers := (run world before).pipeline.consumers.set j c } ∧
        c.stage = .finish (.start .close) ∧ c.panicked = true
  /-- What was queued when a sink panicked, and what has been accepted since, is delivered in order
  once no sink will panic any more. -/
  recovers : ∀ before m since later, ms = before ++ [m] ++ (since ++ later) →
    (∃ x ∈ (run world before).departedOf m, x.2 = .discarded) →
    (∀ x ∈ (run world (before ++ [m])).departedFrom since, x.2 ≠ .discarded) →
    (run world (before ++ [m] ++ since)).Steady → (∀ m' ∈ later, m'.Steady) →
    Recovers world (before ++ [m]) since later

/-- However sinks panic, every run contains their panics. -/
theorem every_run_contains_panics (world : World) (ms : List Move) : ContainsPanics world ms where
  stops i before moves hms hidle halone := by
    subst hms
    exact leads_to_idle (startsOrStops_run (.inr rfl) moves hidle halone)
  stopped i before waiting after hms h := by
    subst hms
    obtain ⟨hnone, hended⟩ := h.stopped
    refine ⟨hnone, hended, fun hsink hstored => ⟨hsink, hstored, ?_, ?_⟩⟩
    · intro c hc sink rest hs
      cases (hended c hc).symm.trans hs
    · intro k c hk
      cases hnone.symm.trans hk
  starts j front between moves hms hnone hidle halone := by
    subst hms
    exact ⟨leads_to_idle (startsOrStops_run (.inl rfl) moves hidle halone),
      restarted_run hnone hidle halone⟩
  conserved := conserved_run world ms
  once := lines_once world ms
  shows := shows_run world ms
  discards before m hms x hx hdiscarded := by
    subst hms
    obtain ⟨j, sink, printed, rest, rfl, hpanic⟩ := panic_of_discarded hx hdiscarded
    rw [run_concat]
    exact ⟨j, sink, printed, rest, rfl, hpanic,
      hpanic.next (orderly_run world before) (sound_run world before)⟩
  recovers before m since later _ hdiscarded hsince hsteady hlater := by
    obtain ⟨x, hx, hdiscarded⟩ := hdiscarded
    obtain ⟨j, sink, printed, rest, rfl, hpanic⟩ := panic_of_discarded hx hdiscarded
    obtain ⟨-, hnil, -⟩ := hpanic.next (orderly_run world before) (sound_run world before)
    rw [← run_concat] at hnil
    exact recovers_run hnil hsince hsteady hlater

/-- The sink panics at the second of three entries that are drained together, which takes away the
second and the third. What is queued after that is printed by the next consumer, through another
sink. -/
example :
    let world := World.calm ⟨[], []⟩ fun _ => 0
    let acts (n : Nat) (a : Actor) : List Move := List.replicate n (.act a)
    let panicked : List Move :=
      .begin 0 (.setSink ⟨.standardOutput, false, fun n => n == 1⟩) :: acts 1 (.caller 0) ++
        .begin 0 .start :: acts 14 (.caller 0) ++
        .begin 1 (.detail .info [[], [], []]) :: acts 12 (.caller 1) ++ acts 30 (.consumer 0)
    let queued := panicked ++ .begin 1 .emptyLine :: acts 12 (.caller 1)
    let stopped := queued ++ .begin 3 .stop :: acts 20 (.caller 3)
    let restarted := stopped ++ .begin 0 (.setSink .console) :: acts 1 (.caller 0) ++
      .begin 2 .start :: acts 14 (.caller 2) ++ acts 30 (.consumer 1)
    (run world panicked).pipeline.printed.length = 1 ∧ (departed world panicked).length = 3 ∧
      (run world queued).pipeline.buffer.incoming.length = 1 ∧
      ((run world stopped).caller 3).tasks.isEmpty ∧
      ((run world restarted).caller 2).reply = some .started ∧
      (run world restarted).pipeline.printed.length = 2 ∧
      (departed world restarted).length = 4 := by
  decide +kernel

end System

end LogPipeline
