import LogPipeline.Proofs.Dump.Account
import LogPipeline.Proofs.Dump.Runs

/-!
# What the entries of a run have come to

A departure says how an entry has left. Nothing that departures say is taken on trust:
the lines that sinks have written are those of the entries printed, the dumps that have
changed the disk are those by which entries have left, what each dump reports is what the
files hold after it, and the entries lost are among those counted as dropped
(`System.shows_run`).
-/

namespace LogPipeline

namespace System

/-- The lines, the disk and the count of dropped entries show how the entries of a run have
left. -/
structure Shows (world : World) (ms : List Move) : Prop where
  /-- The lines that sinks have written are those of the entries printed, in order. -/
  printed : (run world ms).pipeline.printed.reverse.filter Printed.isLine =
    (departed world ms).filterMap fun x => x.2.line? x.1
  /-- The entries that have left with dumps are those of the dumps, in order. -/
  dumped : (departed world ms).filter (fun x => x.2.isDump) =
    (dumps world ms).flatMap DumpCall.departures
  /-- A move that makes a dump leaves the disk as the dump does, and no other changes the disk
  unless it changes from outside. -/
  made : ∀ before m, before ++ [m] <+: ms →
    (run world before).dumpedOf m = [] ∧ ((∃ w, m = .outside w) ∨
        (run world (before ++ [m])).pipeline.world.disk = (run world before).pipeline.world.disk) ∨
      ∃ d, (run world before).dumpedOf m = [d] ∧ d.world = (run world before).pipeline.world ∧
        (run world (before ++ [m])).pipeline.world = d.after
  /-- A dump writes, spills or loses each of its entries. It loses some only if neither file
  takes them. -/
  reports : ∀ d ∈ dumps world ms,
    d.report.written + d.report.spilled + d.report.lost = d.entries.length ∧
      (d.report.spilled = 0 ∨ d.report.lost = 0) ∧ (d.report.lost ≠ 0 → d.BothFail)
  /-- What a dump reports is what its files hold after it. -/
  accounts : ∀ d ∈ dumps world ms, d.entries ≠ [] → d.world.disk.Sound →
    d.writer.retention = none →
    (∀ r ∈ d.writer.requests d.entries d.world, r.2.has r.1 = false) →
    d.writer.Account d.entries d.world d.report (d.writer.dump d.entries d.world).2.1
      d.after.disk
  /-- If all dumps have written all their entries to one path, the archives and the file there
  hold the lines of the entries dumped, in order, after what the file held before. -/
  files : ∀ path, world.disk.Sound → ¬world.disk.HasDevice path → Undisturbed world ms →
    (∀ d ∈ dumps world ms, d.writer.path = path ∧ d.Whole) →
    (run world ms).pipeline.world.disk.reading ((dumps world ms).flatMap DumpCall.archived) path =
      world.disk.contents path ++
        renderAll (((departed world ms).filter fun x => x.2.isDump).map Prod.fst)
  /-- Lost entries are counted as dropped, together with those that the queue has refused. -/
  counted : ∃ n, (run world ms).pipeline.dropped = UInt64.ofNat n ∧
    n + (run world ms).total (callersOf ms) Task.uncounted =
      (ledger world ms).refused + (departed world ms).countP fun x => x.2.isLost

/-- The entries that have left with dumps are the entries of the dumps. -/
theorem map_fst_dumped (world : World) (ms : List Move) :
    ((departed world ms).filter fun x => x.2.isDump).map Prod.fst =
      (dumps world ms).flatMap DumpCall.entries := by
  rw [filter_isDump_departed, List.map_flatMap]
  simp only [DumpCall.map_fst_departures]

/-- Every run shows how its entries have left. -/
theorem shows_run (world : World) (ms : List Move) : Shows world ms where
  printed := (printed_run world ms).trans (lines_departed world ms)
  dumped := filter_isDump_departed world ms
  made before m _ := by
    rw [run_concat]
    exact (run world before).disk_next m
  reports d _ := ⟨d.total.1, d.total.2, DumpCall.bothFail_of_lost⟩
  accounts d _ hne hs hkeep hfree := d.writer.account hne d.world hs hkeep hfree
  files path hs hdev hund hdumps := by
    rw [map_fst_dumped]
    exact ((streams_run ms hs hund hdumps).kept hdev).2
  counted := by
    rw [lost_departed]
    exact (counted_run world ms (callersOf ms) fun _ => id).dropped

end System

end LogPipeline
