import LogPipeline.Proofs.Dump.Runs
import LogPipeline.Proofs.Session.Books

/-!
# What a session leaves

When the program has exited (`exited_run`): what it has forwarded is a beginning of the
input, and it says so; each forwarded line was submitted in its turn, the pipeline was
stopped after the last one, and what was printed or dumped are, in order, the lines of
those that passed the level filter, without those that the queue refused and those that
neither file took, which are counted.
-/

namespace LogPipeline.Intake

open DumpWriter (Account archives)

/-! ## Lines of the log -/

/-- The entry of a line that is logged at a time. -/
def lineEntry (c : Config) (time : LocalTime) (line : String) : Entry :=
  let e := Entry.tagged time (guessLevel line) input.tag [.text line]
  if c.showCaller then e.withCaller site else e

@[simp] theorem level_lineEntry (c : Config) (time : LocalTime) (line : String) :
    (lineEntry c time line).level = guessLevel line := by
  unfold lineEntry
  split <;> rfl

/-- The line of the log for a line of the input: time, level, tag or call site, and the
line itself. -/
theorem render_lineEntry (c : Config) (time : LocalTime) (line : String) :
    (lineEntry c time line).render =
      "[" ++ stampText time ++ "] [" ++ (guessLevel line).label ++ "] " ++
        (if c.showCaller then "[" ++ site.render ++ "]  " else "[stdin]  ") ++ line ++ "\n" := by
  have hmessage : Arg.join [.text line] = line := by
    simp [Arg.join, Arg.joinAfter, Arg.render]
  cases hcaller : c.showCaller <;>
    simp [lineEntry, hcaller, Entry.render, Entry.opening, Entry.message, Entry.tagged,
      Entry.withCaller, Heading.render, hmessage, input]

/-- Entries that record the requests of some lines are those of the lines at some
times. -/
theorem exists_lineEntries {c : Config} {requests : List Request} {entries : List Entry}
    {lines : List String} (h : List.Forall₂ c.Records requests entries)
    (hsub : requests.Sublist (lines.map lineRequest)) :
    ∃ kept : List (LocalTime × String), (kept.map Prod.snd).Sublist lines ∧
      entries = kept.map fun k => lineEntry c k.1 k.2 := by
  obtain ⟨chosen, hsub', rfl⟩ := List.sublist_map_iff.1 hsub
  have hkept : ∃ kept : List (LocalTime × String), kept.map Prod.snd = chosen ∧
      entries = kept.map fun k => lineEntry c k.1 k.2 := by
    clear hsub hsub'
    induction chosen generalizing entries with
    | nil =>
      cases h
      exact ⟨[], rfl, rfl⟩
    | cons line rest ih =>
      cases h with
      | cons hhead htail =>
        obtain ⟨time, rfl⟩ := hhead
        obtain ⟨kept, rfl, rfl⟩ := ih htail
        exact ⟨(time, line) :: kept, rfl, rfl⟩
  obtain ⟨kept, rfl, hentries⟩ := hkept
  exact ⟨kept, hsub', hentries⟩

/-- The lines that pass when nothing but the level decides. -/
theorem passing_of_level {level : Level} {verdicts : List (Request × Bool)}
    (h : ∀ v ∈ verdicts, v.2 = decide (level ≤ v.1.level)) :
    passing verdicts = (verdicts.map Prod.fst).filter fun r => decide (level ≤ r.level) := by
  rw [passing, List.filter_map, List.filter_congr fun v hv => h v hv]
  rfl

/-- The verdicts are those of the level when the debug switch cannot be on. -/
theorem Judges.eq_decide {c : Config} {v : Request × Bool} (h : Judges c v)
    (hswitch : c.isDump = false ∨ c.switchFile = none) : v.2 = decide (c.level ≤ v.1.level) := by
  by_cases hlevel : c.level ≤ v.1.level
  · rw [h.pass hlevel, decide_eq_true hlevel]
  · rw [decide_eq_false hlevel, ← Bool.not_eq_true]
    intro hpass
    rcases h.reason hpass with hle | ⟨-, hdump, hfile⟩
    · exact hlevel hle
    · rcases hswitch with hoff | hnone
      · rw [hoff] at hdump
        cases hdump
      · rw [hnone] at hfile
        cases hfile

/-! ## What is printed and what is dumped -/

section Departed

variable {c : Config} {w : World} {ms : List Move}

/-- What a consumer that prints on the console has printed. -/
theorem lines_of_console (h : ∀ x ∈ System.departed w ms, c.Disposes x.2)
    (hdump : c.isDump = false) :
    (System.ledger w ms).lines = ((System.departed w ms).map Prod.fst).map fun e =>
      .line .standardOutput e.level (e.level.colourise e.render) := by
  rw [System.lines_departed, List.map_map]
  refine List.filterMap_eq_map_iff_forall_eq_some.2 fun x hx => ?_
  have hx := h x hx
  cases hd : x.2 with
  | printed sink =>
    rw [hd] at hx
    obtain ⟨-, rfl⟩ := hx
    rfl
  | discarded =>
    rw [hd] at hx
    exact hx.elim
  | _ =>
    rw [hd] at hx
    exact absurd (hdump.symm.trans hx) (by decide)

/-- What a consumer that dumps has printed and dumped. -/
theorem dumped_of_dumping (h : ∀ x ∈ System.departed w ms, c.Disposes x.2)
    (hdump : c.isDump = true) :
    (System.ledger w ms).lines = [] ∧
      (System.dumps w ms).flatMap DumpCall.entries = (System.departed w ms).map Prod.fst := by
  have hall : ∀ x ∈ System.departed w ms, x.2.isDump = true := by
    intro x hx
    have hx := h x hx
    cases hd : x.2 with
    | printed sink =>
      rw [hd] at hx
      exact absurd (hdump.symm.trans hx.1) (by decide)
    | discarded =>
      rw [hd] at hx
      exact hx.elim
    | _ => rfl
  constructor
  · rw [System.lines_departed]
    refine List.filterMap_eq_nil_iff.2 fun x hx => ?_
    have hx := hall x hx
    cases hd : x.2 <;> simp_all [Departure.line?, Departure.isDump]
  · have hdeparted := System.filter_isDump_departed w ms
    rw [List.filter_eq_self.2 hall] at hdeparted
    rw [hdeparted, List.map_flatMap]
    simp only [DumpCall.map_fst_departures]

end Departed

/-! ## The session -/

section Outcome

variable (c : Config) (w : World) (s : Session) (ms : List Move)

/-- What a session has forwarded of its input when it has come to its end. -/
structure Forwarded (lines : List (Option String)) (ends : Bool) (s : Session)
    (ending : Ending) : Prop where
  /-- The forwarded lines are a beginning of the input, and what is left says why it has
  ended: nothing, a line that cannot be read, or an interrupt. -/
  rest : ∃ rest, lines = s.forwarded.map some ++ rest ∧ ending.Fits ends s.signalled rest
  forward : ∃ k, forward k lines = (s.forwarded, ending)
  /-- Forwarding gives the number of the lines, or fails at a line that cannot be read. -/
  outcome : s.outcome? =
    some (if ending = .unreadable then .error .reading else .ok s.forwarded.length)

/-- What the program of a session has asked of its pipeline, and how the level filter has
judged it, so that some of the forwarded lines have passed. -/
structure Submitted (passed : List String) : Prop where
  system : s.system = System.run w ms
  /-- Each call has begun when the one before it had returned. -/
  calls : System.begun w ms =
    (Call.apply c :: .start :: s.forwarded.map lineCall ++ [Call.stop]).map (0, ·)
  /-- The stop has returned: nobody has anything left to do, and nothing is queued. -/
  returned : ∀ i, (s.system.caller i).tasks = []
  stopped : s.system.pipeline.worker = none ∧ s.system.pipeline.AllEnded ∧
    s.system.pipeline.buffer.incoming = []
  /-- Each forwarded line is judged once, in order. -/
  judged : (System.judged w ms).map Prod.fst = s.forwarded.map lineRequest
  judges : ∀ v ∈ System.judged w ms, Judges c v
  passing : passing (System.judged w ms) = passed.map lineRequest
  sublist : passed.Sublist s.forwarded
  /-- The level alone decides unless the debug switch may be on. -/
  eq_filter : c.isDump = false ∨ c.switchFile = none →
    passed = s.forwarded.filter fun line => decide (c.level ≤ guessLevel line)

/-- What becomes of the lines that have passed: some are kept, each with the time at which
it was logged, and the others are refused; the kept ones are printed or dumped, in order,
but for those that are lost. -/
structure Shown (passed : List String) (kept : List (LocalTime × String)) : Prop where
  sublist : (kept.map Prod.snd).Sublist passed
  accepted : (System.ledger w ms).accepted = kept.map fun k => lineEntry c k.1 k.2
  refused : kept.length + (System.ledger w ms).refused = passed.length
  printed : c.isDump = false → (System.ledger w ms).lost = 0 ∧
    s.system.pipeline.printed.reverse = kept.map fun k => .line .standardOutput (guessLevel k.2)
      ((guessLevel k.2).colourise (lineEntry c k.1 k.2).render)
  dumped : c.isDump = true → s.system.pipeline.printed = [] ∧
    (System.dumps w ms).flatMap DumpCall.entries = (kept.map fun k => lineEntry c k.1 k.2) ∧
    ∀ d ∈ System.dumps w ms, c.Directs d.writer
  /-- A dump writes the first of its entries to the dump file; the others go to the
  fallback file together, or are lost together. -/
  reports : ∀ d ∈ System.dumps w ms,
    d.report.written + d.report.spilled + d.report.lost = d.entries.length ∧
      (d.report.spilled = 0 ∨ d.report.lost = 0)
  /-- What each dump leaves in the files. -/
  accounts : c.retention = none → ∀ d ∈ System.dumps w ms, d.entries ≠ [] →
    d.world.disk.Sound → (∀ r ∈ d.writer.requests d.entries d.world, r.2.has r.1 = false) →
    Account d.writer d.entries d.world d.report (d.writer.dump d.entries d.world).2.1 d.after.disk
  /-- What all dumps leave in the archives and the dump file. -/
  files : c.isDump = true → w.disk.Sound → ¬w.disk.HasDevice c.dumpPath →
    System.Undisturbed w ms → (∀ d ∈ System.dumps w ms, d.Whole) →
    s.system.pipeline.world.disk.reading
        ((System.dumps w ms).flatMap DumpCall.archived) c.dumpPath =
      w.disk.contents c.dumpPath ++ renderAll (kept.map fun k => lineEntry c k.1 k.2)
  /-- What is counted as dropped. -/
  dropped : s.system.pipeline.dropped =
    UInt64.ofNat ((System.ledger w ms).refused + (System.ledger w ms).lost)
  lost : (System.ledger w ms).lost = ((System.dumps w ms).map fun d => d.report.lost).sum
  bothFail : ∀ d ∈ System.dumps w ms, d.report.lost ≠ 0 → d.BothFail
  guaranteed : c.emitMode = .guaranteed → (System.ledger w ms).refused = 0

end Outcome

namespace Served

variable {c : Config} {w : World} {forwarded : List String} {ms : List Move} {ending : Ending}
  {owed : List Request}

/-- What has passed the filter when the program has exited, and what the queue has
accepted of it. -/
theorem exists_kept (h : Served c w (.exited ending) forwarded ms owed) :
    ∃ (passed : List String) (kept : List (LocalTime × String)),
      passing (System.judged w ms) = passed.map lineRequest ∧ passed.Sublist forwarded ∧
      (kept.map Prod.snd).Sublist passed ∧
      (System.ledger w ms).accepted = (kept.map fun k => lineEntry c k.1 k.2) ∧
      kept.length + (System.ledger w ms).refused = passed.length := by
  obtain ⟨settled, requests, hpassing, hsub, hrecords, hlength, -⟩ := h.booked.settles
  obtain rfl : owed = [] := h.serving.engaged.idle h.tasks_of_exited
  rw [List.nil_append, List.append_nil] at hpassing
  obtain rfl := hpassing
  have hjudged := h.judged
  rw [h.tasks_of_exited, List.flatMap_nil, List.append_nil] at hjudged
  obtain ⟨passed, hpassed, hmap⟩ : ∃ passed : List String, passed.Sublist forwarded ∧
      passing (System.judged w ms) = passed.map lineRequest := by
    refine List.sublist_map_iff.1 ?_
    rw [← hjudged]
    exact List.filter_sublist.map Prod.fst
  obtain ⟨kept, hkept, haccepted⟩ := exists_lineEntries hrecords (hmap ▸ hsub)
  refine ⟨passed, kept, hmap, hpassed, hkept, haccepted, ?_⟩
  rw [hmap, List.length_map, hrecords.length_eq, haccepted, List.length_map] at hlength
  exact hlength

/-- When the level alone decides, the lines that have passed are those with the level. -/
theorem eq_filter (h : Served c w (.exited ending) forwarded ms owed) {passed : List String}
    (hpassed : passing (System.judged w ms) = passed.map lineRequest)
    (hswitch : c.isDump = false ∨ c.switchFile = none) :
    passed = forwarded.filter fun line => decide (c.level ≤ guessLevel line) := by
  have hjudged := h.judged
  rw [h.tasks_of_exited, List.flatMap_nil, List.append_nil] at hjudged
  rw [passing_of_level fun v hv => (h.booked.judges v hv).eq_decide hswitch, hjudged,
    List.filter_map] at hpassed
  have hinj : Function.Injective lineRequest := fun a b hab => by
    simp only [lineRequest, Request.mk.injEq, List.cons.injEq, Arg.text.injEq] at hab
    exact hab.2.2.1.1
  exact (List.map_injective_iff.2 hinj hpassed).symm

/-- What has been printed are lines only. -/
theorem printed_eq (h : Served c w (.exited ending) forwarded ms owed) :
    (System.run w ms).pipeline.printed.reverse = (System.ledger w ms).lines := by
  rw [← System.printed_run w ms, List.filter_eq_self.2]
  exact fun x hx => h.serving.lines x (List.mem_reverse.1 hx)

/-- What is counted as dropped. -/
theorem dropped_eq (h : Served c w (.exited ending) forwarded ms owed) :
    (System.run w ms).pipeline.dropped =
      UInt64.ofNat ((System.ledger w ms).refused + (System.ledger w ms).lost) := by
  obtain ⟨n, hn, hsum⟩ := (System.counted_run w ms (callersOf ms) fun _ => id).dropped
  have htotal : (System.run w ms).total (callersOf ms) Task.uncounted = 0 :=
    Finset.sum_eq_zero fun i _ => by rw [h.idle_of_exited i]; rfl
  rw [hn, ← hsum, htotal, Nat.add_zero]

/-- What becomes of the lines that have passed. -/
theorem shown {s : Session} (h : Served c w (.exited ending) s.forwarded ms owed)
    (hsystem : s.system = System.run w ms) {passed : List String}
    {kept : List (LocalTime × String)} (hkept : (kept.map Prod.snd).Sublist passed)
    (haccepted : (System.ledger w ms).accepted = kept.map fun k => lineEntry c k.1 k.2)
    (hrefused : kept.length + (System.ledger w ms).refused = passed.length) :
    Shown c w s ms passed kept where
  sublist := hkept
  accepted := haccepted
  refused := hrefused
  printed hdump := by
    have hnodumps : System.dumps w ms = [] := List.eq_nil_iff_forall_not_mem.2 fun d hd =>
      absurd (hdump.symm.trans (h.booked.directs d hd).1) (by decide)
    refine ⟨by rw [System.lost_ledger, hnodumps]; rfl, ?_⟩
    rw [hsystem, h.printed_eq, lines_of_console h.booked.disposes hdump, ← h.flushed.1, haccepted,
      List.map_map]
    simp [Function.comp_def]
  dumped hdump := by
    obtain ⟨hlines, hentries⟩ := dumped_of_dumping h.booked.disposes hdump
    refine ⟨?_, ?_, fun d hd => (h.booked.directs d hd).2⟩
    · rw [hsystem, ← List.reverse_eq_nil_iff, h.printed_eq, hlines]
    · rw [hentries, ← h.flushed.1, haccepted]
  reports d _ := d.total
  accounts hkeep d hd hne hs hfree :=
    d.writer.account hne d.world hs ((h.booked.directs d hd).2.retention.trans hkeep) hfree
  files hdump hs hdev hund hwhole := by
    obtain ⟨-, hentries⟩ := dumped_of_dumping h.booked.disposes hdump
    have hstreams := System.streams_run ms hs hund fun d hd =>
      ⟨(h.booked.directs d hd).2.path, hwhole d hd⟩
    rw [hsystem, (hstreams.kept hdev).2, hentries, ← h.flushed.1, haccepted]
  dropped := hsystem ▸ h.dropped_eq
  lost := System.lost_ledger w ms
  bothFail _ _ := DumpCall.bothFail_of_lost
  guaranteed hmode := by
    obtain ⟨-, -, -, -, -, -, hnone⟩ := h.booked.settles
    exact hnone hmode

end Served

/-- Turns in which the program forwards two lines and meets one that it cannot read. -/
def failingTurns : List Turn :=
  let call : List Turn := List.replicate 20 (.actor (.caller 0)) ++ [.program]
  call ++ call ++ List.replicate 5 .reader ++ .program :: call ++ .program :: call ++
    .program :: List.replicate 12 (.actor (.caller 0)) ++
    List.replicate 30 (.actor (.consumer 0)) ++ call

/-- The session prints what the calls print one after the other. -/
example :
    let w := World.calm ⟨[], []⟩ fun _ => 0
    let c := { Config.default with level := .info }
    let lines := [some "one", some "DEBUG two", none, some "three"]
    (Session.run c w lines true failingTurns).system.pipeline.printed =
      (runLines c (forward none lines).1 w).printed := by
  decide +kernel

end LogPipeline.Intake
