import LogPipeline.Proofs.Dump.Lines
import LogPipeline.Proofs.Ledger.Run

/-!
# Histories of a run

Beside the ledger, three more things are written down of what the moves of a run do:
the calls that begin, the requests that the level filter has judged, and the dumps. The
entries that leave by a dump are those of the dumps, in order (`filter_isDump_departed`),
and an entry is lost only in a dump in which both files have failed
(`DumpCall.bothFail_of_lost`, `lost_ledger`).
-/

namespace LogPipeline

/-- What a step of a caller has judged: whether a request passes the level filter. A
look at the debug switch that does not let it through leaves that to the level. -/
def Task.verdict (p : Pipeline) : Task → List (Request × Bool)
  | .checkSwitch r => if p.switchOn then [(r, true)] else []
  | .checkLevel r => [(r, decide (p.level ≤ r.level))]
  | _ => []

/-- The dump that a step of a consumer makes. -/
def Consumer.dumped (p : Pipeline) (k : Consumer) : List DumpCall :=
  match k.stage with
  | .dump => [⟨p.writer, k.draining, p.world⟩]
  | _ => []

namespace System

/-- What the moves of a run enter into a history. -/
def historyFrom {α : Type} (f : System → Move → List α) (s : System) : List Move → List α
  | [] => []
  | m :: ms => f s m ++ (s.next m).historyFrom f ms

def history {α : Type} (f : System → Move → List α) (world : World) (ms : List Move) : List α :=
  (new world).historyFrom f ms

theorem historyFrom_append {α : Type} (f : System → Move → List α) (s : System)
    (ms ms' : List Move) :
    s.historyFrom f (ms ++ ms') = s.historyFrom f ms ++ (s.runFrom ms).historyFrom f ms' := by
  induction ms generalizing s with
  | nil => rfl
  | cons m ms ih =>
    rw [List.cons_append, historyFrom, ih, historyFrom, List.append_assoc]
    rfl

theorem historyFrom_concat {α : Type} (f : System → Move → List α) (s : System)
    (ms : List Move) (m : Move) :
    s.historyFrom f (ms ++ [m]) = s.historyFrom f ms ++ f (s.runFrom ms) m := by
  rw [historyFrom_append, historyFrom, historyFrom, List.append_nil]

theorem history_concat {α : Type} (f : System → Move → List α) (world : World)
    (ms : List Move) (m : Move) :
    history f world (ms ++ [m]) = history f world ms ++ f (run world ms) m :=
  historyFrom_concat f (new world) ms m

/-- The call that begins with a move, and its caller. -/
def begunOf (s : System) : Move → List (Nat × Call)
  | .begin i call => if (s.caller i).tasks = [] then [(i, call)] else []
  | _ => []

/-- The request that is judged with a move. -/
def judgedOf (s : System) : Move → List (Request × Bool)
  | .act (.caller i) =>
    match (s.caller i).tasks with
    | t :: _ => t.verdict s.pipeline
    | [] => []
  | _ => []

/-- The dump that is made with a move. -/
def dumpedOf (s : System) : Move → List DumpCall
  | .act (.consumer j) =>
    match s.pipeline.consumers[j]? with
    | some k => k.dumped s.pipeline
    | none => []
  | _ => []

/-- The calls that have begun in a run, each by a caller with nothing to do. -/
def begun : World → List Move → List (Nat × Call) := history begunOf

/-- The requests that the level filter has judged in a run, and whether they passed. -/
def judged : World → List Move → List (Request × Bool) := history judgedOf

/-- The dumps of a run. -/
def dumps : World → List Move → List DumpCall := history dumpedOf

theorem begun_concat (world : World) (ms : List Move) (m : Move) :
    begun world (ms ++ [m]) = begun world ms ++ (run world ms).begunOf m :=
  history_concat _ world ms m

theorem judged_concat (world : World) (ms : List Move) (m : Move) :
    judged world (ms ++ [m]) = judged world ms ++ (run world ms).judgedOf m :=
  history_concat _ world ms m

theorem dumps_concat (world : World) (ms : List Move) (m : Move) :
    dumps world (ms ++ [m]) = dumps world ms ++ (run world ms).dumpedOf m :=
  history_concat _ world ms m

end System

/-! ## Dumps -/

namespace DumpCall

/-- How the entries of a dump leave. -/
def departures (d : DumpCall) : List (Entry × Departure) :=
  d.entries.zip (d.report.departures d.writer)

theorem map_fst_departures (d : DumpCall) : d.departures.map Prod.fst = d.entries := by
  refine List.map_fst_zip (Nat.le_of_eq ?_)
  rw [DumpReport.length_departures, report, DumpWriter.length_fates_dump]

/-- A dump writes, spills or loses each of its entries, and does not both spill and lose. -/
theorem total (d : DumpCall) :
    d.report.written + d.report.spilled + d.report.lost = d.entries.length ∧
      (d.report.spilled = 0 ∨ d.report.lost = 0) := by
  by_cases hne : d.entries = []
  · simp [report, DumpWriter.dump, hne]
  · obtain ⟨htotal, -, htogether, -⟩ := d.writer.dump_counts hne d.world
    exact ⟨htotal, htogether⟩

/-- The dump file does not take all entries, and the fallback file not the others. -/
def BothFail (d : DumpCall) : Prop :=
  ∃ e e', d.failure = some e ∧ (writeFallback d.writer.fallback
    (d.entries.drop d.report.written) (d.writer.writeEntries d.entries d.world).2.2).1 = .error e'

/-- Entries are lost only when both files fail. -/
theorem bothFail_of_lost {d : DumpCall} (h : d.report.lost ≠ 0) : d.BothFail := by
  have hfallback := d.writer.fallback_writeEntries d.entries d.world
  revert h
  unfold BothFail failure report DumpWriter.dump
  split
  · exact fun h => absurd rfl h
  · split
    · exact fun h => absurd rfl h
    · next e written rotations notices d' w' hrun =>
      rw [hrun] at hfallback
      simp only at hfallback
      simp only [hrun, ← hfallback]
      split
      · exact fun h => absurd rfl h
      · next e' w'' hspill => exact fun _ => ⟨e, e', rfl, by rw [hspill]⟩

end DumpCall

namespace Consumer

theorem filter_isDump_departures (p : Pipeline) (k : Consumer) :
    (k.departures p).filter (fun x => x.2.isDump) =
      (k.dumped p).flatMap DumpCall.departures := by
  cases hs : k.stage with
  | dump =>
    rw [List.filter_eq_self.2 fun x hx => isDump_of_mem_departures hs hx]
    simp only [departures, dumped, hs, List.flatMap_singleton]
    rfl
  | print sink rest =>
    cases rest with
    | nil => simp [departures, dumped, hs]
    | cons e rest =>
      simp only [departures, dumped, hs]
      split <;> simp [Departure.isDump]
  | _ => simp [departures, dumped, hs]

theorem lost_ledger (p : Pipeline) (k : Consumer) :
    (k.ledger p).lost = ((k.dumped p).map fun d => d.report.lost).sum := by
  cases hs : k.stage with
  | dump =>
    rw [lost_ledger_of_dump hs]
    simp [dumped, hs, DumpCall.report]
  | print sink rest =>
    cases rest with
    | nil => simp [Consumer.ledger, dumped, hs, Ledger.lost, Ledger.empty]
    | cons e rest =>
      simp only [Consumer.ledger, dumped, hs]
      split <;> simp [Ledger.lost, Ledger.empty]
  | _ => simp [Consumer.ledger, dumped, hs, Ledger.lost, Ledger.empty]

end Consumer

namespace System

/-- The entries that leave by dumps are those of the dumps. -/
theorem filter_isDump_departed (world : World) (ms : List Move) :
    (departed world ms).filter (fun x => x.2.isDump) =
      (dumps world ms).flatMap DumpCall.departures := by
  induction ms using List.reverseRecOn with
  | nil => rfl
  | append_singleton ms m ih =>
    rw [departed_concat, dumps_concat, List.filter_append, List.flatMap_append, ih,
      List.append_cancel_left_eq]
    match m with
    | .act (.consumer j) =>
      simp only [departedOf, dumpedOf]
      cases (run world ms).pipeline.consumers[j]? with
      | none => rfl
      | some k => exact k.filter_isDump_departures _
    | .begin _ _ | .act (.caller _) | .act (.timer _) | .outside _ => rfl

/-- The lost entries are those that the dumps have lost. -/
theorem lost_ledger (world : World) (ms : List Move) :
    (ledger world ms).lost = ((dumps world ms).map fun d => d.report.lost).sum := by
  induction ms using List.reverseRecOn with
  | nil => rfl
  | append_singleton ms m ih =>
    rw [ledger_concat, dumps_concat, Ledger.lost_append, List.map_append, List.sum_append, ih,
      Nat.add_left_cancel_iff]
    match m with
    | .act (.consumer j) =>
      simp only [ledgerOf, dumpedOf]
      cases (run world ms).pipeline.consumers[j]? with
      | none => rfl
      | some k => exact k.lost_ledger _
    | .act (.caller i) =>
      simp only [ledgerOf]
      split
      · rw [Ledger.lost, Task.handed_ledger]
        rfl
      · rfl
    | .begin i call =>
      simp only [ledgerOf]
      split
      · exact (Call.sum_inFlight call).2.2.2.2
      · rfl
    | .act (.timer _) | .outside _ => rfl

end System

end LogPipeline
