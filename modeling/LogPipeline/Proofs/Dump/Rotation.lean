import LogPipeline.Proofs.Disk.Keeping
import LogPipeline.Proofs.Dump.Account

/-!
# What rotations keep

Writers that keep their archives for ever add to files and rename them, and do nothing
else to a disk, whatever fails on the way. So no byte is lost except by a rotation that
puts the dump file in the place of another file (`Overwrites`): archive names repeat, as
the sequence of every writer begins at one and the time in a name is in seconds. A
rotation keeps all bytes exactly if it does not overwrite any, and calls of any number of
writers keep all bytes if none of their rotations does
(`Fleet.keeps_unless_overwritten`).
-/

namespace LogPipeline

open Disk (Displaces Keeps movedPlace)

namespace DumpWriter

/-! ## One rotation -/

/-- Where a rotation takes each place. -/
def relocation (d : DumpWriter) (w : World) : Place → Place :=
  match (d.rotate w).1, w.disk.resolve d.path, w.disk.resolve (d.nextArchive w) with
  | .ok _, .ok s, .ok t => movedPlace s.place t.place
  | _, _, _ => id

/-- Whether a rotation puts the dump file in the place of another one that it does not
begin with. -/
def Overwrites (d : DumpWriter) (w : World) : Prop :=
  ∃ archive s t, (d.rotate w).1 = .ok archive ∧ w.disk.resolve d.path = .ok s ∧
    w.disk.resolve archive = .ok t ∧ ¬w.disk.bytesAt t.place <+: w.disk.bytesAt s.place

/-- A rotation displaces what is at the archive name, or leaves the disk as it is. -/
theorem rotate_displaces (d : DumpWriter) (w : World) (hs : w.disk.Sound) :
    (d.relocation w = id ∧ (d.rotate w).2.2.disk = w.disk ∧ ¬d.Overwrites w) ∨
      ∃ s t, d.relocation w = movedPlace s t ∧ Displaces w.disk (d.rotate w).2.2.disk s t ∧
        (d.Overwrites w ↔ ¬w.disk.bytesAt t <+: w.disk.bytesAt s) := by
  rcases (d.rotate_cases w).2 with ⟨hok, hrename⟩ | ⟨e, herror, hdisk⟩
  · obtain ⟨s, t, hsource, htarget, -, -, hmoved⟩ := hs.rename_cases hrename
    have hrelocation : d.relocation w = movedPlace s.place t.place := by
      simp only [relocation, hok, hsource, htarget]
    have hover : d.Overwrites w ↔ ¬w.disk.bytesAt t.place <+: w.disk.bytesAt s.place := by
      refine ⟨fun ⟨archive, s', t', hok', hs', ht', hlost⟩ => ?_,
        fun hlost => ⟨_, s, t, hok, hsource, htarget, hlost⟩⟩
      cases hok.symm.trans hok'
      cases hsource.symm.trans hs'
      cases htarget.symm.trans ht'
      exact hlost
    rcases hmoved with ⟨hsame, hdisk⟩ | hmoved
    · refine .inl ⟨?_, hdisk, fun hlost => hover.1 hlost ?_⟩
      · rw [hrelocation, hsame]
        exact funext (Disk.movedPlace_same t.place)
      · simpa only [hsame] using List.prefix_refl _
    · exact .inr ⟨s.place, t.place, hrelocation, hmoved, hover⟩
  · refine .inl ⟨?_, hdisk, fun ⟨archive, _, _, hok, _⟩ => ?_⟩
    · simp only [relocation, herror]
    · rw [herror] at hok
      cases hok

theorem sound_rotate (d : DumpWriter) (w : World) (hs : w.disk.Sound) :
    (d.rotate w).2.2.disk.Sound := by
  rcases d.rotate_displaces w hs with ⟨-, hdisk, -⟩ | ⟨s, t, -, hmoved, -⟩
  · rwa [hdisk]
  · exact hmoved.sound hs

/-- What a rotation overwrites is at the archive name. -/
theorem has_of_overwrites {d : DumpWriter} {w : World} (hs : w.disk.Sound)
    (h : d.Overwrites w) : w.disk.has (d.nextArchive w) := by
  obtain ⟨archive, s, t, hok, hsource, htarget, hlost⟩ := h
  rcases (d.rotate_cases w).2 with ⟨hok', hrename⟩ | ⟨e, herror, -⟩
  · cases hok'.symm.trans hok
    obtain ⟨s', t', hs', ht', -, hfile, hmoved⟩ := hs.rename_cases hrename
    cases hsource.symm.trans hs'
    cases htarget.symm.trans ht'
    rcases hmoved with ⟨hsame, -⟩ | hmoved
    · rw [hsame] at hlost
      exact (hlost (List.prefix_refl _)).elim
    simp only [Disk.has, htarget]
    split
    · rfl
    · next node hdir hnode =>
      have hsdir : w.disk.node? s.place ≠ some .directory := fun hsdir =>
        hdir (by simpa [hnode] using (hmoved.alike (by simp [hnode])).2 hsdir)
      simp [Target.asDirectory, (hfile hsdir).1]
    · next hnone =>
      rw [Disk.bytesAt_of_none hnone] at hlost
      exact (hlost List.nil_prefix).elim
  · rw [herror] at hok
    cases hok

/-- A rotation keeps all bytes unless it overwrites a file. -/
theorem rotate_keeps_iff (d : DumpWriter) (w : World) (hs : w.disk.Sound) :
    Keeps (d.relocation w) w.disk (d.rotate w).2.2.disk ↔ ¬d.Overwrites w := by
  rcases d.rotate_displaces w hs with ⟨hid, hdisk, hover⟩ | ⟨s, t, hrelocation, hmoved, hover⟩
  · rw [hid, hdisk]
    exact iff_of_true (.refl _) hover
  · rw [hrelocation, hmoved.keeps_iff, hover, Decidable.not_not]

/-! ## Disks between rotations -/

/-- Where rotations, one after the other, take each place. -/
def relocate : List (DumpWriter × World) → Place → Place
  | [] => id
  | r :: rs => relocate rs ∘ r.1.relocation r.2

theorem relocate_append (rs rs' : List (DumpWriter × World)) :
    relocate (rs ++ rs') = relocate rs' ∘ relocate rs := by
  induction rs with
  | nil => rfl
  | cons r rs ih => exact congrArg (· ∘ r.1.relocation r.2) ih

/-- One disk is another after rotations, each by a writer in a world; all other bytes
stay, so that none is lost if no rotation overwrites a file. -/
structure Rotating (disk : Disk) (rotations : List (DumpWriter × World)) (disk' : Disk) :
    Prop where
  sound : disk'.Sound
  within : ∀ r ∈ rotations, r.2.disk.Sound
  keeps : (∀ r ∈ rotations, ¬r.1.Overwrites r.2) → Keeps (relocate rotations) disk disk'

namespace Rotating

variable {disk disk' disk'' : Disk} {rs rs' : List (DumpWriter × World)}

theorem of_keeps (hs : disk'.Sound) (h : Keeps id disk disk') : Rotating disk [] disk' :=
  ⟨hs, nofun, fun _ => h⟩

theorem of_rotate (d : DumpWriter) {w : World} (hs : w.disk.Sound) :
    Rotating w.disk [(d, w)] (d.rotate w).2.2.disk where
  sound := d.sound_rotate w hs
  within := List.forall_mem_singleton.2 hs
  keeps hno := (d.rotate_keeps_iff w hs).2 (hno _ List.mem_cons_self)

theorem trans (h : Rotating disk rs disk') (h' : Rotating disk' rs' disk'') :
    Rotating disk (rs ++ rs') disk'' where
  sound := h'.sound
  within := List.forall_mem_append.2 ⟨h.within, h'.within⟩
  keeps hno := by
    obtain ⟨hno, hno'⟩ := List.forall_mem_append.1 hno
    rw [relocate_append]
    exact (h.keeps hno).trans (h'.keeps hno')

end Rotating

/-! ## One dump -/

theorem keeps_writeBatches (d : DumpWriter) (place : Place) (batches : List (List Entry))
    (w : World) : Keeps id w.disk (d.writeBatches place batches w).2.disk := by
  fun_induction DumpWriter.writeBatches d place batches w with
  | case1 w => exact .refl _
  | case2 batch rest w e w' happend =>
    have h := w.keeps_append place (renderAll batch)
    rwa [happend] at h
  | case3 batch rest w w' happend size w'' hsize hfull =>
    have h := w.keeps_append place (renderAll batch)
    rwa [happend, ← World.disk_of_size hsize] at h
  | case4 batch rest w w' happend size w'' hsize hfull run w''' hrun ih =>
    have h := w.keeps_append place (renderAll batch)
    rw [happend, ← World.disk_of_size hsize] at h
    rw [hrun] at ih
    exact h.trans ih
  | case5 batch rest w w' happend e w'' hsize run w''' hrun ih =>
    have h := w.keeps_append place (renderAll batch)
    rw [happend, ← World.disk_of_size hsize] at h
    rw [hrun] at ih
    exact h.trans ih

theorem writeFile_rotating (d : DumpWriter) (entries : List Entry) {w : World}
    (hs : w.disk.Sound) : Rotating w.disk [] (d.writeFile entries w).2.disk := by
  obtain ⟨torn, hstreams, -⟩ := d.writeFile_streams entries w hs
  refine .of_keeps hstreams.sound ?_
  have hopened := w.keeps_openAppend d.path
  unfold writeFile
  split
  · next hopen =>
    rw [hopen] at hopened
    exact hopened
  · next hopen =>
    rw [hopen] at hopened
    exact hopened.trans (d.keeps_writeBatches _ _ _)

/-- If archives are kept for ever, a full file is rotated and no more. -/
theorem disk_archiveFull (d : DumpWriter) (w : World) (hkeep : d.retention = none) :
    (d.archiveFull w).2.2.2.disk = (d.rotate w).2.2.disk := by
  have hwriter := (d.rotate_cases w).1
  unfold archiveFull
  split
  · next hrotate =>
    rw [hrotate] at hwriter ⊢
    simp only at hwriter
    simp [retain, hwriter, hkeep]
  · next hrotate => rw [hrotate]

/-- The rotations in the writing of entries: the writer and the world before each. -/
def rotations (d : DumpWriter) (entries : List Entry) (w : World) : List (DumpWriter × World) :=
  match d.writeFile entries w with
  | (⟨.full, written, _⟩, w) =>
    let (_, _, d', w') := d.archiveFull w
    let rest := entries.drop written
    (d, w) :: if _ : rest ≠ [] ∧ rest.length < entries.length then d'.rotations rest w' else []
  | _ => []
termination_by entries.length
decreasing_by
  rename_i h
  exact h.2

theorem rotations_nil (d : DumpWriter) (w : World) : d.rotations [] w = [] := by
  rw [rotations]
  unfold writeFile
  split
  · next hfull =>
    split at hfull
    · cases hfull
    · rw [chunks_nil] at hfull
      cases hfull
  · rfl

theorem full_rotating (d : DumpWriter) {entries : List Entry} {w w' : World} {written : Nat}
    {notices : List Notice} (hs : w.disk.Sound) (hkeep : d.retention = none)
    (hfile : d.writeFile entries w = (⟨.full, written, notices⟩, w')) :
    Rotating w.disk [(d, w')] (d.archiveFull w').2.2.2.disk := by
  have h := d.writeFile_rotating entries hs
  rw [hfile] at h
  rw [d.disk_archiveFull w' hkeep]
  exact h.trans (.of_rotate d h.sound)

theorem writeEntries_rotating (d : DumpWriter) (entries : List Entry) (w : World)
    (hs : w.disk.Sound) (hkeep : d.retention = none) :
    Rotating w.disk (d.rotations entries w) (d.writeEntries entries w).2.2.disk := by
  fun_induction DumpWriter.writeEntries d entries w with
  | case1 d entries w e written notices w' hfile =>
    have h := d.writeFile_rotating entries hs
    rw [hfile] at h
    rwa [rotations, hfile]
  | case2 d entries w written notices w' hfile =>
    have h := d.writeFile_rotating entries hs
    rw [hfile] at h
    rwa [rotations, hfile]
  | case3 d entries w written notices w' hfile made more d' w'' harchive rest hrest run d'' w''' hrun ih =>
    have hmore : entries.drop written ≠ [] ∧ (entries.drop written).length < entries.length := hrest
    have hfull := d.full_rotating hs hkeep hfile
    have hwriter := d.writer_archiveFull w'
    rw [harchive] at hfull hwriter
    obtain rfl : d' = _ := hwriter
    have hrun' := ih hfull.sound hkeep
    rw [hrun] at hrun'
    rw [rotations, hfile]
    simp only [harchive, dif_pos hmore]
    exact hfull.trans hrun'
  | case4 d entries w written notices w' hfile made more d' w'' harchive rest hrest =>
    have hdone : ¬(entries.drop written ≠ [] ∧ (entries.drop written).length < entries.length) := hrest
    have hfull := d.full_rotating hs hkeep hfile
    rw [harchive] at hfull
    rw [rotations, hfile]
    simp only [harchive, dif_neg hdone]
    exact hfull

end DumpWriter

theorem writeFallback_rotating (path : Path) (entries : List Entry) {w : World}
    (hs : w.disk.Sound) :
    DumpWriter.Rotating w.disk [] (writeFallback path entries w).2.disk := by
  refine .of_keeps ?_ ?_
  · rcases writeFallback_alters path entries hs with hsame | ⟨place, ht, h⟩
    · rwa [hsame]
    · exact h.sound hs (hs.fileTarget_parent ht)
  · have hopened := w.keeps_openAppend path
    unfold writeFallback
    split
    · next hopen =>
      rw [hopen] at hopened
      exact hopened
    · next place w' hopen =>
      rw [hopen] at hopened
      have hwritten := w'.keeps_append place (renderAll entries)
      split <;> next happend =>
        rw [happend] at hwritten
        exact hopened.trans hwritten

namespace DumpWriter

theorem dump_rotating (d : DumpWriter) (entries : List Entry) {w : World} (hs : w.disk.Sound)
    (hkeep : d.retention = none) :
    Rotating w.disk (d.rotations entries w) (d.dump entries w).2.2.2.disk := by
  by_cases hne : entries = []
  · subst hne
    rw [rotations_nil]
    exact .of_keeps hs (.refl _)
  · have hwritten := d.writeEntries_rotating entries w hs hkeep
    rcases (d.dump_cases hne w).2.2.2 with ⟨-, hdisk⟩ | ⟨fallback, rfl, hdisk, -⟩
    · rw [hdisk]
      exact hwritten
    · rw [hdisk, ← List.append_nil (d.rotations entries w)]
      exact hwritten.trans (writeFallback_rotating _ _ hwritten.sound)

theorem retention_rotate (d : DumpWriter) (w : World) :
    (d.rotate w).2.1.retention = d.retention := by
  rw [(d.rotate_cases w).1]

theorem retention_dump (d : DumpWriter) (entries : List Entry) (w : World) :
    (d.dump entries w).2.2.1.retention = d.retention := by
  obtain ⟨n, hn⟩ := d.writer_dump entries w
  rw [hn]

end DumpWriter

/-! ## Several writers -/

/-- Dump writers, each under a number, that work on one disk. -/
structure Fleet where
  writer : Nat → DumpWriter
  world : World

/-- What is asked of one of the writers. -/
inductive FleetCall where
  | dump (i : Nat) (entries : List Entry)
  | rotate (i : Nat)
  | setTarget (i : Nat) (path : Path) (cap : UInt64)

namespace Fleet

def put (f : Fleet) (i : Nat) (d : DumpWriter) (w : World) : Fleet :=
  ⟨fun j => if j = i then d else f.writer j, w⟩

def next (f : Fleet) : FleetCall → Fleet
  | .dump i entries =>
    let (_, _, d, w) := (f.writer i).dump entries f.world
    f.put i d w
  | .rotate i =>
    let (_, d, w) := (f.writer i).rotate f.world
    f.put i d w
  | .setTarget i path cap => f.put i ((f.writer i).setTarget path cap) f.world

def run (f : Fleet) (calls : List FleetCall) : Fleet := calls.foldl next f

/-- The rotations in a call. -/
def rotationsIn (f : Fleet) : FleetCall → List (DumpWriter × World)
  | .dump i entries => (f.writer i).rotations entries f.world
  | .rotate i => [(f.writer i, f.world)]
  | .setTarget .. => []

/-- The rotations in a run, in order. -/
def rotations (f : Fleet) : List FleetCall → List (DumpWriter × World)
  | [] => []
  | call :: calls => f.rotationsIn call ++ (f.next call).rotations calls

theorem run_append (f : Fleet) (calls calls' : List FleetCall) :
    f.run (calls ++ calls') = (f.run calls).run calls' := List.foldl_append

theorem rotations_append (f : Fleet) (calls calls' : List FleetCall) :
    f.rotations (calls ++ calls') = f.rotations calls ++ (f.run calls).rotations calls' := by
  induction calls generalizing f with
  | nil => rfl
  | cons call calls ih =>
    rw [List.cons_append, rotations, rotations, ih, List.append_assoc]
    rfl

variable {f : Fleet} {calls : List FleetCall}

/-- A sound disk, and writers that keep their archives for ever. -/
structure Keeping (f : Fleet) : Prop where
  sound : f.world.disk.Sound
  retention : ∀ i, (f.writer i).retention = none

theorem Keeping.put (h : f.Keeping) {i : Nat} {d : DumpWriter} {w : World}
    (hs : w.disk.Sound) (hd : d.retention = none) : (f.put i d w).Keeping := by
  refine ⟨hs, fun j => ?_⟩
  simp only [Fleet.put]
  split
  · exact hd
  · exact h.retention j

theorem Keeping.next (h : f.Keeping) (call : FleetCall) :
    (f.next call).Keeping ∧
      DumpWriter.Rotating f.world.disk (f.rotationsIn call) (f.next call).world.disk := by
  cases call with
  | dump i entries =>
    have hdump := (f.writer i).dump_rotating entries h.sound (h.retention i)
    exact ⟨h.put hdump.sound ((DumpWriter.retention_dump ..).trans (h.retention i)), hdump⟩
  | rotate i =>
    have hrotate := DumpWriter.Rotating.of_rotate (f.writer i) h.sound
    exact ⟨h.put hrotate.sound ((DumpWriter.retention_rotate ..).trans (h.retention i)), hrotate⟩
  | setTarget i path cap =>
    exact ⟨h.put h.sound (h.retention i), .of_keeps h.sound (.refl _)⟩

theorem Keeping.run (h : f.Keeping) (calls : List FleetCall) :
    (f.run calls).Keeping ∧
      DumpWriter.Rotating f.world.disk (f.rotations calls) (f.run calls).world.disk := by
  induction calls generalizing f with
  | nil => exact ⟨h, .of_keeps h.sound (.refl _)⟩
  | cons call calls ih =>
    obtain ⟨hnext, hcall⟩ := h.next call
    obtain ⟨hrun, hcalls⟩ := ih hnext
    exact ⟨hrun, hcall.trans hcalls⟩

/-- Calls of any number of writers, whatever fails in them: a rotation loses bytes exactly
if it overwrites a file, which is where its archive name is taken, and from one call to
any later one no byte is lost if no rotation of the run overwrites a file. -/
theorem keeps_unless_overwritten (h : f.Keeping) (calls : List FleetCall) :
    (∀ r ∈ f.rotations calls,
      (Keeps (r.1.relocation r.2) r.2.disk (r.1.rotate r.2).2.2.disk ↔ ¬r.1.Overwrites r.2) ∧
        (r.1.Overwrites r.2 → r.2.disk.has (r.1.nextArchive r.2))) ∧
      ((∀ r ∈ f.rotations calls, ¬r.1.Overwrites r.2) →
        ∀ before during after, calls = before ++ during ++ after →
          Keeps (DumpWriter.relocate ((f.run before).rotations during))
            (f.run before).world.disk (f.run (before ++ during)).world.disk) := by
  refine ⟨fun r hr => ?_, ?_⟩
  · have hs := (h.run calls).2.within r hr
    exact ⟨r.1.rotate_keeps_iff r.2 hs, DumpWriter.has_of_overwrites hs⟩
  · rintro hno before during after rfl
    rw [run_append]
    refine ((h.run before).1.run during).2.keeps fun r hr => hno r ?_
    simp [rotations_append, hr]

/-- Two writers of one file, of which the second makes its first archive where the first
writer has made its own. -/
def twins : Fleet := ⟨fun _ => .new ⟨"app.log"⟩ 1, .calm ⟨[], []⟩ fun _ => 0⟩

theorem twins_keeping : twins.Keeping := ⟨Disk.sound_empty, fun _ => rfl⟩

/-- A rotation that loses an archive: what the first of two writers has written is nowhere
on the disk after the second has written as much. -/
theorem rotation_destroys_archive :
    let first := Entry.tagged (.utc 0) .info "t" [.text "first"]
    let second := Entry.tagged (.utc 0) .info "t" [.text "second"]
    let f := twins.run [.dump 0 [first]]
    twins.Keeping ∧ (∀ n, twins.world.outcomes n = .regular) ∧
      f.world.disk.bytesAt ["app_700101_000000_00001.log"] = renderAll [first] ∧
      ∀ move, ¬Keeps move f.world.disk (f.next (.dump 1 [second])).world.disk := by
  intro first second f
  have hfirst : f.world.disk.bytesAt ["app_700101_000000_00001.log"] = renderAll [first] := by
    decide +kernel
  have hsecond : (f.next (.dump 1 [second])).world.disk.nodes =
      [(["app_700101_000000_00001.log"], .file (renderAll [second]) 0)] := by decide +kernel
  refine ⟨twins_keeping, fun _ => rfl, hfirst, fun move hkeeps => ?_⟩
  have hpre := hkeeps ["app_700101_000000_00001.log"]
  rw [hfirst] at hpre
  -- wherever one looks, there is nothing or the second line
  have hbytes : ∀ q, (f.next (.dump 1 [second])).world.disk.bytesAt q = [] ∨
      (f.next (.dump 1 [second])).world.disk.bytesAt q = renderAll [second] := fun q => by
    unfold Disk.bytesAt Disk.node?
    rw [hsecond]
    split
    · next hnode =>
      split at hnode
      · cases hnode
      · rw [List.lookup_cons] at hnode
        split at hnode
        · cases hnode
          exact .inr rfl
        · cases hnode
    · exact .inl rfl
  rcases hbytes (move ["app_700101_000000_00001.log"]) with hnil | hline
  · rw [hnil] at hpre
    exact absurd hpre (by decide +kernel)
  · rw [hline] at hpre
    exact absurd hpre (by decide +kernel)

/-- One writer whose archives do not meet: its second dump loses nothing of the first. -/
theorem keeps_unless_overwritten_of_one :
    let call := FleetCall.dump 0 [.tagged (.utc 0) .info "t" [.text "first"]]
    let call' := FleetCall.dump 0 [.tagged (.utc 0) .info "t" [.text "second"]]
    twins.Keeping ∧ (∀ r ∈ twins.rotations [call, call'], ¬r.1.Overwrites r.2) ∧
      (twins.rotations [call, call']).length = 2 ∧
      Keeps (DumpWriter.relocate ((twins.run [call]).rotations [call']))
        (twins.run [call]).world.disk (twins.run [call, call']).world.disk := by
  intro call call'
  have hfree : ∀ r ∈ twins.rotations [call, call'], r.2.disk.has (r.1.nextArchive r.2) = false := by
    decide +kernel
  have hno : ∀ r ∈ twins.rotations [call, call'], ¬r.1.Overwrites r.2 := fun r hr hover => by
    have htaken := DumpWriter.has_of_overwrites
      ((twins_keeping.run [call, call']).2.within r hr) hover
    rw [hfree r hr] at htaken
    cases htaken
  exact ⟨twins_keeping, hno, by decide +kernel,
    (keeps_unless_overwritten twins_keeping [call, call']).2 hno [call] [call'] [] rfl⟩

end Fleet

end LogPipeline
