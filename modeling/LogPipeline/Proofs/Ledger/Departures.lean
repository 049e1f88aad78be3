import LogPipeline.Proofs.Ledger.Steps

/-!
# How entries leave the pipeline

An accepted entry leaves in the hands of a consumer: a sink prints it, a file takes
it, neither file does, or the sink panics and the entry is given up with all that
was drained after it. A departure says which, and by which sink or to which path.
Unlike what is handed on, departures account for every entry a consumer has taken,
whether or not sinks panic (`Consumer.Sound.step_departures`).
-/

namespace LogPipeline

open Sync

/-- How an entry has left the pipeline. -/
inductive Departure where
  | printed (sink : Sink)
  /-- It went to the dump file at a path. -/
  | written (path : Path)
  /-- It went to the fallback file at a path. -/
  | spilled (path : Path)
  | lost
  /-- The sink has panicked at it, or at an entry drained before it. -/
  | discarded

/-- What a sink has written of an entry that left. -/
def Departure.line? (e : Entry) : Departure → Option Printed
  | printed sink => some (.line sink.channel e.level (sink.textOf e))
  | _ => none

/-- An entry has left with a dump. -/
def Departure.isDump : Departure → Bool
  | .written _ | .spilled _ | .lost => true
  | .printed _ | .discarded => false

/-- The entry was lost, and counted as dropped. -/
def Departure.isLost : Departure → Bool
  | lost => true
  | _ => false

/-- How the entries leave of a dump that reports these numbers, in order. -/
def DumpReport.departures (d : DumpWriter) (r : DumpReport) : List Departure :=
  List.replicate r.written (.written d.path) ++ List.replicate r.spilled (.spilled d.fallback) ++
    List.replicate r.lost .lost

namespace DumpReport

theorem length_departures (d : DumpWriter) (r : DumpReport) :
    (r.departures d).length = r.fates.length := by
  simp [departures, fates]

theorem of_mem_departures {d : DumpWriter} {r : DumpReport} {x : Departure}
    (h : x ∈ r.departures d) : x = .written d.path ∨ x = .spilled d.fallback ∨ x = .lost := by
  simp only [departures, List.mem_append, List.mem_replicate] at h
  rcases h with (⟨-, rfl⟩ | ⟨-, rfl⟩) | ⟨-, rfl⟩
  · exact .inl rfl
  · exact .inr (.inl rfl)
  · exact .inr (.inr rfl)

end DumpReport

namespace Consumer

/-- The entries that leave with a step of a consumer. -/
def departures (p : Pipeline) (c : Consumer) : List (Entry × Departure) :=
  match c.stage with
  | .dump => c.draining.zip ((p.writer.dump c.draining p.world).1.departures p.writer)
  | .print sink (e :: rest) =>
    if sink.panics (p.records sink.channel).length then
      (e :: rest).map fun e => (e, .discarded)
    else [(e, .printed sink)]
  | _ => []

theorem map_fst_departures_dump {p : Pipeline} {c : Consumer} (hs : c.stage = .dump) :
    (c.departures p).map Prod.fst = c.draining := by
  have hlen : ((p.writer.dump c.draining p.world).1.departures p.writer).length =
      c.draining.length := by
    rw [DumpReport.length_departures, DumpWriter.length_fates_dump]
  simp [departures, hs, List.map_fst_zip (Nat.le_of_eq hlen.symm)]

/-- Only entries in the hands of a consumer leave. -/
theorem departures_prefix (p : Pipeline) (c : Consumer) :
    (c.departures p).map Prod.fst <+: c.unhandled := by
  cases hs : c.stage with
  | dump =>
    rw [map_fst_departures_dump hs]
    simp [unhandled, taken, hs]
  | print sink rest =>
    cases rest with
    | nil => simp [departures, hs]
    | cons e rest =>
      simp only [departures, hs, unhandled]
      split
      · simp [Function.comp_def]
      · simp
  | _ => simp [departures, hs]

theorem isDump_of_mem_departures {p : Pipeline} {c : Consumer} (hs : c.stage = .dump)
    {x : Entry × Departure} (hx : x ∈ c.departures p) : x.2.isDump = true := by
  simp only [Consumer.departures, hs] at hx
  rcases DumpReport.of_mem_departures (List.of_mem_zip hx).2 with hd | hd | hd <;> rw [hd] <;> rfl

theorem lines_ledger (p : Pipeline) (c : Consumer) :
    (c.ledger p).lines = (c.departures p).filterMap fun x => x.2.line? x.1 := by
  cases hs : c.stage with
  | dump =>
    have hledger : (c.ledger p).lines = [] := by
      refine List.filterMap_eq_nil_iff.2 fun h hmem => ?_
      simp only [Consumer.ledger, hs] at hmem
      exact DumpReport.line?_of_mem_fates (List.of_mem_zip hmem).2
    rw [hledger]
    refine (List.filterMap_eq_nil_iff.2 fun x hmem => ?_).symm
    simp only [departures, hs] at hmem
    rcases DumpReport.of_mem_departures (List.of_mem_zip hmem).2 with hx | hx | hx <;>
      simp [hx, Departure.line?]
  | print sink rest =>
    cases rest with
    | nil => simp [Consumer.ledger, departures, hs, Ledger.lines, Ledger.empty]
    | cons e rest =>
      simp only [Consumer.ledger, departures, hs]
      split
      · symm
        simp [Ledger.lines, Ledger.empty, Departure.line?]
      · simp [Ledger.lines, Fate.line?, Departure.line?]
  | _ => simp [Consumer.ledger, departures, hs, Ledger.lines, Ledger.empty]

/-- The lost entries are those that leave as lost. -/
theorem lost_departures (p : Pipeline) (c : Consumer) :
    (c.departures p).countP (fun x => x.2.isLost) = (c.ledger p).lost := by
  cases hs : c.stage with
  | dump =>
    have hlen : c.draining.length =
        ((p.writer.dump c.draining p.world).1.departures p.writer).length := by
      rw [DumpReport.length_departures, DumpWriter.length_fates_dump]
    have hcount := congrArg (List.countP Departure.isLost) (List.map_snd_zip hlen.ge)
    rw [List.countP_map] at hcount
    rw [lost_ledger_of_dump hs]
    simp only [departures, hs]
    refine hcount.trans ?_
    simp [DumpReport.departures, List.countP_replicate, Departure.isLost]
  | print sink rest =>
    cases rest with
    | nil => simp [Consumer.ledger, departures, hs, Ledger.lost, Ledger.empty]
    | cons e rest =>
      simp only [Consumer.ledger, departures, hs]
      split <;> simp [Ledger.lost, Ledger.empty, Departure.isLost]
  | _ => simp [Consumer.ledger, departures, hs, Ledger.lost, Ledger.empty]

theorem map_fst_departures_of_calm {p : Pipeline} {c : Consumer}
    (h : (c.step p).2.panicked = false) :
    (c.departures p).map Prod.fst = (c.ledger p).handed.map Prod.fst := by
  cases hs : c.stage with
  | dump =>
    have hlen := p.writer.length_fates_dump c.draining p.world
    rw [map_fst_departures_dump hs]
    simp [Consumer.ledger, hs, List.map_fst_zip (Nat.le_of_eq hlen.symm)]
  | print sink rest =>
    cases rest with
    | nil => simp [Consumer.ledger, departures, hs, Ledger.empty]
    | cons e rest =>
      simp only [Consumer.step, hs] at h
      simp only [Consumer.ledger, departures, hs]
      split
      · next hpanics => simp [hpanics] at h
      · rfl
  | _ => simp [Consumer.ledger, departures, hs, Ledger.empty]

/-- Entries are discarded only when a sink panics. -/
theorem panics_of_discarded {p : Pipeline} {c : Consumer} {x : Entry × Departure}
    (hx : x ∈ c.departures p) (hdiscarded : x.2 = .discarded) :
    ∃ sink e rest, c.stage = .print sink (e :: rest) ∧
      sink.panics (p.records sink.channel).length = true := by
  unfold departures at hx
  split at hx
  · rcases DumpReport.of_mem_departures (List.of_mem_zip hx).2 with hd | hd | hd <;>
      cases hdiscarded.symm.trans hd
  · next sink e rest hs =>
    split at hx
    · next hpanics => exact ⟨sink, e, rest, hs, hpanics⟩
    · cases List.mem_singleton.1 hx
      cases hdiscarded
  · cases hx

/-- With a panic the consumer gives up what is left of what it has drained, and goes on to say
that it has ended. -/
theorem step_of_panics {p : Pipeline} {c : Consumer} {sink : Sink} {e : Entry} {rest : List Entry}
    (hs : c.stage = .print sink (e :: rest))
    (hpanics : sink.panics (p.records sink.channel).length = true) :
    c.step p = (p, { c with draining := [], panicked := true, stage := .finish (.start .close) }) ∧
      c.departures p = (e :: rest).map fun e => (e, .discarded) := by
  simp [step, departures, hs, hpanics]

theorem not_discarded_of_calm {p : Pipeline} {c : Consumer} (h : (c.step p).2.panicked = false)
    {x : Entry × Departure} (hx : x ∈ c.departures p) : x.2 ≠ .discarded := by
  intro hdiscarded
  obtain ⟨sink, e, rest, hs, hpanics⟩ := panics_of_discarded hx hdiscarded
  rw [(step_of_panics hs hpanics).1] at h
  cases h

/-- The first of the entries in the hands of a consumer leave, all of them if a sink
panics, and it takes over the queue when it has none left. -/
theorem Sound.step_departures {c : Consumer} (h : c.Sound) (p : Pipeline) :
    (c.departures p).map Prod.fst ++ (c.step p).2.unhandled ++ (c.step p).1.buffer.incoming =
      c.unhandled ++ p.buffer.incoming := by
  unfold Sound at h
  cases hs : c.stage with
  | takeQueue call =>
    simp only [hs] at h
    obtain ⟨hnil, hfetches⟩ := h
    cases call with
    | enter op a =>
      cases op with
      | exchange entries room =>
        obtain ⟨rfl, ha⟩ := hfetches
        rcases SpinLock.attempt_of_budget_zero ha p.buffer.lock with hattempt | hattempt <;>
          simp [Consumer.step, hs, BufferCall.step, hattempt, RecordBuffer.perform, departures,
            unhandled, taken, hnil]
      | _ => exact hfetches.elim
    | publish reply =>
      cases reply with
      | drained entries room =>
        simp [Consumer.step, hs, BufferCall.step, departures, unhandled, taken]
      | _ => exact hfetches.elim
    | leave reply =>
      cases reply with
      | drained entries room =>
        simp [Consumer.step, hs, BufferCall.step, departures, unhandled, taken]
      | _ => exact hfetches.elim
    | _ => exact hfetches.elim
  | choose =>
    simp only [Consumer.step, hs, departures]
    split
    · simp [unhandled, taken, hs]
    · split <;> simp [unhandled, taken, hs]
  | dump =>
    rw [map_fst_departures_dump hs]
    simp [Consumer.step, hs, unhandled, taken, dumpAll, Pipeline.addDropped]
  | print sink rest =>
    cases rest with
    | nil => simp [Consumer.step, hs, departures, unhandled]
    | cons e rest =>
      simp only [Consumer.step, hs, departures]
      split
      · simp [unhandled, taken, hs, Function.comp_def]
      · simp [unhandled, hs]
  | flush sink =>
    simp only [Consumer.step, hs, departures]
    split <;> simp [unhandled, taken, hs]
  | decide =>
    simp only [hs] at h
    simp only [Consumer.step, hs, departures, nextRound]
    split
    · simp [unhandled, taken, hs]
    · split <;> simp [unhandled, taken, hs]
  | top =>
    simp only [Consumer.step, hs, departures]
    split <;> simp [unhandled, taken, hs]
  | awaitDump call =>
    simp only [Consumer.step, hs, departures]
    split <;> simp [unhandled, taken, hs]
  | checkStop call =>
    simp only [hs] at h
    simp only [Consumer.step, hs, departures]
    split
    · simp [unhandled, taken, hs, BufferCall.exchange, h.1]
    · simp [unhandled, taken, hs]
  | idle call =>
    simp only [Consumer.step, hs, departures]
    split <;> simp [unhandled, taken, hs]
  | finish call =>
    simp only [Consumer.step, hs, departures]
    split <;> simp [unhandled, taken, hs]
  | _ => simp [Consumer.step, hs, departures, unhandled, taken]

end Consumer

namespace System

/-- The entries that leave with a move. -/
def departedOf (s : System) : Move → List (Entry × Departure)
  | .act (.consumer j) =>
    match s.pipeline.consumers[j]? with
    | some c => c.departures s.pipeline
    | none => []
  | _ => []

def departedFrom (s : System) : List Move → List (Entry × Departure)
  | [] => []
  | m :: ms => s.departedOf m ++ (s.next m).departedFrom ms

/-- The entries that have left in a run, the first first. -/
def departed (world : World) (ms : List Move) : List (Entry × Departure) :=
  (new world).departedFrom ms

theorem departedFrom_append (s : System) (ms ms' : List Move) :
    s.departedFrom (ms ++ ms') = s.departedFrom ms ++ (s.runFrom ms).departedFrom ms' := by
  induction ms generalizing s with
  | nil => rfl
  | cons m ms ih =>
    rw [List.cons_append, departedFrom, ih, departedFrom, List.append_assoc]
    rfl

theorem departed_append (world : World) (ms ms' : List Move) :
    departed world (ms ++ ms') = departed world ms ++ (run world ms).departedFrom ms' :=
  departedFrom_append (new world) ms ms'

theorem departed_concat (world : World) (ms : List Move) (m : Move) :
    departed world (ms ++ [m]) = departed world ms ++ (run world ms).departedOf m := by
  rw [departed_append, departedFrom, departedFrom, List.append_nil]

end System

end LogPipeline
