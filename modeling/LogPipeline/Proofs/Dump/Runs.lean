import LogPipeline.Proofs.Ledger.History

/-!
# The dumps of a run on the disk

Nobody but a dump changes the disk, unless it changes from outside (`disk_next`). So
when it does not, and every dump has written all its entries, the archives that the dumps
have made and the dump file after them hold what the dump file held before the run and
then the lines of all entries dumped, in order (`streams_run`).
-/

namespace LogPipeline

/-- A caller leaves the disk. -/
theorem Task.disk_step (i : Nat) (p : Pipeline) (t : Task) :
    (t.step i p).pipeline.world.disk = p.world.disk := by
  apply pipeline_cases (P := fun p' => p'.world.disk = p.world.disk)
  case onEvent =>
    intro name c _
    cases name <;> rfl
  case store =>
    intro s _
    cases s <;> rfl
  all_goals
    intros
    rfl

/-- A consumer leaves the world, but for the dump that it makes. -/
theorem Consumer.world_step (p : Pipeline) (k : Consumer) :
    k.dumped p = [] ∧ (k.step p).1.world = p.world ∨
      ∃ d, k.dumped p = [d] ∧ d.world = p.world ∧ (k.step p).1.world = d.after := by
  cases hs : k.stage with
  | dump => exact .inr ⟨⟨p.writer, k.draining, p.world⟩, by simp [dumped, hs], rfl, by
      simp only [step, hs]; rfl⟩
  | print sink rest =>
    cases rest with
    | nil => exact .inl ⟨by simp [dumped, hs], by simp only [step, hs]⟩
    | cons e rest =>
      refine .inl ⟨by simp [dumped, hs], ?_⟩
      simp only [step, hs]
      split <;> rfl
  | flush sink =>
    refine .inl ⟨by simp [dumped, hs], ?_⟩
    simp only [step, hs]
    split <;> rfl
  | _ => exact .inl ⟨by simp [dumped, hs], by simp only [step, hs]⟩

namespace DumpCall

/-- A dump by a writer that keeps its archives for ever, where nothing is in the place of
an archive, and the dump file and the archives take all entries. -/
structure Whole (d : DumpCall) : Prop where
  retention : d.writer.retention = none
  free : ∀ r ∈ d.writer.requests d.entries d.world, r.2.has r.1 = false
  written : d.report.written = d.entries.length

/-- Such a dump adds the lines of its entries through the path. -/
theorem Whole.streams {d : DumpCall} (h : d.Whole) (hs : d.world.disk.Sound) :
    Streams d.writer.path d.world.disk d.archived (renderAll d.entries) d.after.disk := by
  by_cases hne : d.entries = []
  · simp only [archived, after, DumpWriter.dump, hne]
    exact .refl hs
  · obtain ⟨hwritten, -, harchives, -⟩ := d.writer.dump_cases hne d.world
    obtain ⟨torn, hstreams, htorn⟩ :=
      d.writer.writeEntries_streams d.entries d.world hs h.retention h.free
    have hall : (d.writer.writeEntries d.entries d.world).1.written = d.entries.length :=
      hwritten.symm.trans h.written
    obtain rfl : torn = [] := by
      rcases htorn with rfl | ⟨-, hpre⟩
      · rfl
      · rw [hall, List.drop_length] at hpre
        exact List.prefix_nil.1 hpre
    rw [hall, List.take_length, List.append_nil] at hstreams
    rw [archived, harchives, disk_after_of_written h.written hne]
    exact hstreams

end DumpCall

namespace System

variable {world : World} {path : Path}

/-- The disk does not change from outside in a run. -/
def Undisturbed (world : World) (ms : List Move) : Prop :=
  ∀ before w, before ++ [.outside w] <+: ms → w.disk = (run world before).pipeline.world.disk

theorem Undisturbed.of_concat {ms : List Move} {m : Move} (h : Undisturbed world (ms ++ [m])) :
    Undisturbed world ms :=
  fun before w hpre => h before w (hpre.trans (List.prefix_append ms [m]))

/-- Only a dump and a change from outside change the disk. -/
theorem disk_next (s : System) (m : Move) :
    s.dumpedOf m = [] ∧ ((∃ w, m = .outside w) ∨
        (s.next m).pipeline.world.disk = s.pipeline.world.disk) ∨
      ∃ d, s.dumpedOf m = [d] ∧ d.world = s.pipeline.world ∧
        (s.next m).pipeline.world = d.after := by
  match m with
  | .begin i call =>
    refine .inl ⟨rfl, .inr ?_⟩
    simp only [next, System.begin]
    split <;> rfl
  | .act (.caller i) =>
    refine .inl ⟨rfl, .inr ?_⟩
    cases ht : (s.caller i).tasks with
    | nil => rw [next, step_caller_of_nil ht]
    | cons t rest =>
      rw [next, step_caller_of_cons ht]
      exact t.disk_step i s.pipeline
  | .act (.consumer j) =>
    cases hk : s.pipeline.consumers[j]? with
    | none => exact .inl ⟨by simp [dumpedOf, hk], .inr (by simp [next, step, Pipeline.stepConsumer, hk])⟩
    | some k =>
      simp only [dumpedOf, hk]
      rw [next, step_consumer_of_some hk]
      exact (k.world_step s.pipeline).imp (fun h => ⟨h.1, .inr (congrArg World.disk h.2)⟩) id
  | .act (.timer j) =>
    refine .inl ⟨rfl, .inr ?_⟩
    cases hk : s.pipeline.consumers[j]? with
    | none => simp [next, step, Pipeline.expireConsumer, hk]
    | some k => rw [next, step_timer_of_some hk]; rfl
  | .outside w => exact .inl ⟨rfl, .inl ⟨w, rfl⟩⟩

/-- If the disk does not change from outside and every dump to a path has written all its
entries, their lines have been added through the path in order. -/
theorem streams_run (ms : List Move) (hs : world.disk.Sound) (hund : Undisturbed world ms)
    (hdumps : ∀ d ∈ dumps world ms, d.writer.path = path ∧ d.Whole) :
    Streams path world.disk ((dumps world ms).flatMap DumpCall.archived)
      (renderAll ((dumps world ms).flatMap DumpCall.entries)) (run world ms).pipeline.world.disk := by
  induction ms using List.reverseRecOn with
  | nil => exact .refl hs
  | append_singleton ms m ih =>
    rw [dumps_concat] at hdumps ⊢
    have h := ih hund.of_concat fun d hd => hdumps d (List.mem_append_left _ hd)
    rw [run_concat, List.flatMap_append, List.flatMap_append, renderAll_append]
    rcases (run world ms).disk_next m with ⟨hnone, hdisk⟩ | ⟨d, hone, hworld, hafter⟩
    · have hsame : ((run world ms).next m).pipeline.world.disk =
          (run world ms).pipeline.world.disk := by
        rcases hdisk with ⟨w, rfl⟩ | hsame
        · exact hund ms w (List.prefix_refl _)
        · exact hsame
      rw [hnone, hsame]
      simpa [renderAll] using h
    · obtain ⟨hpath, hwhole⟩ := hdumps d (by simp [hone])
      have hstep := hwhole.streams (hworld ▸ h.sound)
      rw [hone, hafter]
      rw [hpath, hworld] at hstep
      simpa using h.trans hstep

end System

end LogPipeline
