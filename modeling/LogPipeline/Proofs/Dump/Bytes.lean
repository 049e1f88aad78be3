import LogPipeline.Proofs.Disk.Operations
import LogPipeline.Proofs.Disk.Renaming
import LogPipeline.Proofs.Dump.Counts

/-!
# What a dump puts into files

A disk passes through a dump in steps: the file at the dump path grows, or it
moves to an archive where nothing was. What the steps add up to is `Streams`:
the archives made and then the dump file hold what the dump file held, followed
by the added bytes, and all other places are as they were. The bytes that a dump
adds are the lines of the entries it counts as written, followed by a part of one
batch only if the writing of that batch fails (`writeEntries_streams`).
-/

namespace LogPipeline

open Disk (Alters Grows Moves SameTree)

theorem renderAll_append (es es' : List Entry) :
    renderAll (es ++ es') = renderAll es ++ renderAll es' := List.flatMap_append

/-! ## Appending through a path -/

/-- The contents of a file that has been cut into archives: theirs, one after the
other, and then what stands at the path. -/
def Disk.reading (d : Disk) (archived : List Path) (path : Path) : Bytes :=
  archived.flatMap d.contents ++ d.contents path

/-- One disk is another with bytes added at the end of the file of a path, which
has meanwhile been archived to some paths. -/
structure Streams (path : Path) (disk : Disk) (archived : List Path) (bytes : Bytes)
    (disk' : Disk) : Prop where
  sound : disk'.Sound
  sameTree : SameTree disk disk'
  archive : ∀ a ∈ archived, ∃ t, disk.fileTarget a = .ok t ∧ disk.fileTarget path ≠ .ok t ∧
    disk.node? t = none ∧ disk'.node? t ≠ none
  others : ∀ q, disk.fileTarget path ≠ .ok q → (∀ a ∈ archived, disk.fileTarget a ≠ .ok q) →
    disk'.node? q = disk.node? q
  kept : ¬disk.HasDevice path → ¬disk'.HasDevice path ∧
    disk'.reading archived path = disk.contents path ++ bytes
  /-- The first file begins with what the dump file held. -/
  first : ¬disk.HasDevice path → disk.contents path <+: disk'.contents (archived.headD path)

namespace Streams

variable {path : Path} {disk disk' disk'' : Disk} {as bs : List Path} {bytes bytes' : Bytes}
  {place : Place}

theorem refl (hs : disk.Sound) : Streams path disk [] [] disk :=
  ⟨hs, .refl disk, nofun, fun _ _ _ => rfl, fun h => ⟨h, by simp [Disk.reading]⟩,
    fun _ => List.prefix_refl _⟩

/-- The place of a path may change. -/
theorem of_alters (hs : disk.Sound) (ht : disk.fileTarget path = .ok place)
    (h : Alters disk disk' place) (hdev : disk.HasDevice path) :
    Streams path disk [] bytes disk' where
  sound := h.sound hs (hs.fileTarget_parent ht)
  sameTree := h.sameTree
  archive := nofun
  others q hq _ := h.others q fun heq => hq (heq ▸ ht)
  kept hfile := (hfile hdev).elim
  first hfile := (hfile hdev).elim

/-- The file of a path may grow. -/
theorem of_grows (hs : disk.Sound) (ht : disk.fileTarget path = .ok place)
    (h : Grows disk disk' place bytes) : Streams path disk [] bytes disk' where
  sound := h.sound hs (hs.fileTarget_parent ht)
  sameTree := h.sameTree
  archive := nofun
  others q hq _ := h.others q fun heq => hq (heq ▸ ht)
  kept _ := by
    have ht' := h.sameTree.fileTarget ht
    obtain ⟨m, hfile⟩ := h.file
    refine ⟨Disk.not_hasDevice ht' (by simp [hfile]), ?_⟩
    simp [Disk.reading, Disk.contents_of_fileTarget ht, Disk.contents_of_fileTarget ht', h.bytesAt]
  first _ := by
    simp [Disk.contents_of_fileTarget ht, Disk.contents_of_fileTarget (h.sameTree.fileTarget ht),
      h.bytesAt]

/-- The file of a path may move to where nothing was. -/
theorem of_moves (hs : disk.Sound) (ht : disk.fileTarget path = .ok place) {a : Path}
    {target : Place} (ha : disk.resolve a = .ok ⟨target, .name⟩)
    (h : Moves disk disk' place target) : Streams path disk [a] [] disk' where
  sound := h.sound hs
  sameTree := h.sameTree
  archive := by
    obtain ⟨node, hnode, -⟩ := h.was
    refine List.forall_mem_singleton.2 ⟨target, Disk.fileTarget_eq_ok_iff.2 ⟨ha, by simp [h.free]⟩,
      ?_, h.free, by simp [h.nodes, hnode]⟩
    rw [ht]
    simpa using h.ne
  others q hq hqa := by
    have hqt : q ≠ target := by
      rintro rfl
      exact hqa a (by simp) (Disk.fileTarget_eq_ok_iff.2 ⟨ha, by simp [h.free]⟩)
    have hqs : q ≠ place := by
      rintro rfl
      exact hq ht
    rw [h.nodes, if_neg hqt, if_neg hqs]
  kept _ := by
    have hta := Disk.fileTarget_eq_ok_iff.2 ⟨ha, show _ ≠ _ by simp [h.free]⟩
    have hnone : disk'.node? place = none := by rw [h.nodes, if_neg h.ne, if_pos rfl]
    refine ⟨Disk.not_hasDevice (h.sameTree.fileTarget ht) (by simp [hnone]), ?_⟩
    simp [Disk.reading, Disk.contents_of_fileTarget ht,
      Disk.contents_of_fileTarget (h.sameTree.fileTarget ht),
      Disk.contents_of_fileTarget (h.sameTree.fileTarget hta), h.bytesAt_target, h.bytesAt_source]
  first _ := by
    have hta := Disk.fileTarget_eq_ok_iff.2 ⟨ha, show _ ≠ _ by simp [h.free]⟩
    simp [Disk.contents_of_fileTarget ht,
      Disk.contents_of_fileTarget (h.sameTree.fileTarget hta), h.bytesAt_target]

/-- An archive stays as it is made. -/
theorem node?_archive (h : Streams path disk as bytes disk')
    (h' : Streams path disk' bs bytes' disk'') {a : Path} (ha : a ∈ as) {t : Place}
    (ht : disk.fileTarget a = .ok t) : disk''.node? t = disk'.node? t := by
  obtain ⟨t', ht', hpath, -, hmade⟩ := h.archive a ha
  rw [ht] at ht'
  cases ht'
  refine h'.others t (fun hp => hpath (h.sameTree.symm.fileTarget hp)) fun b hb hbt => ?_
  obtain ⟨t', ht', -, hfree, -⟩ := h'.archive b hb
  rw [hbt] at ht'
  cases ht'
  exact hmade hfree

theorem contents_archive (h : Streams path disk as bytes disk')
    (h' : Streams path disk' bs bytes' disk'') :
    ∀ a ∈ as, disk''.contents a = disk'.contents a := fun a ha => by
  obtain ⟨t, ht, -⟩ := h.archive a ha
  have ht' := h.sameTree.fileTarget ht
  rw [Disk.contents_of_fileTarget ht', Disk.contents_of_fileTarget (h'.sameTree.fileTarget ht')]
  exact Disk.bytesAt_congr (h.node?_archive h' ha ht)

theorem trans (h : Streams path disk as bytes disk') (h' : Streams path disk' bs bytes' disk'') :
    Streams path disk (as ++ bs) (bytes ++ bytes') disk'' where
  sound := h'.sound
  sameTree := h.sameTree.trans h'.sameTree
  archive a ha := by
    rcases List.mem_append.1 ha with ha | ha
    · obtain ⟨t, ht, hpath, hfree, hmade⟩ := h.archive a ha
      exact ⟨t, ht, hpath, hfree, by rwa [h.node?_archive h' ha ht]⟩
    · obtain ⟨t, ht, hpath, hfree, hmade⟩ := h'.archive a ha
      have hpath' : disk.fileTarget path ≠ .ok t := fun hp => hpath (h.sameTree.fileTarget hp)
      refine ⟨t, h.sameTree.symm.fileTarget ht, hpath', ?_, hmade⟩
      by_cases hq : ∃ b ∈ as, disk.fileTarget b = .ok t
      · obtain ⟨b, hb, hbt⟩ := hq
        obtain ⟨t', ht', -, hfree', -⟩ := h.archive b hb
        rw [hbt] at ht'
        cases ht'
        exact hfree'
      · rwa [← h.others t hpath' fun b hb hbt => hq ⟨b, hb, hbt⟩]
  others q hq hqa := by
    rw [h'.others q (fun hp => hq (h.sameTree.symm.fileTarget hp)) fun b hb hbt =>
        hqa b (by simp [hb]) (h.sameTree.symm.fileTarget hbt),
      h.others q hq fun b hb => hqa b (by simp [hb])]
  kept hdev := by
    obtain ⟨hdev', hread⟩ := h.kept hdev
    obtain ⟨hdev'', hread'⟩ := h'.kept hdev'
    refine ⟨hdev'', ?_⟩
    have harchives := h.contents_archive h'
    calc disk''.reading (as ++ bs) path
        = as.flatMap disk''.contents ++ disk''.reading bs path := by
          simp [Disk.reading]
      _ = as.flatMap disk'.contents ++ (disk'.contents path ++ bytes') := by
          rw [hread', List.flatMap_def, List.map_congr_left harchives, ← List.flatMap_def]
      _ = disk.contents path ++ (bytes ++ bytes') := by
          rw [← List.append_assoc, ← Disk.reading, hread, List.append_assoc]
  first hdev := by
    have hfirst := h.first hdev
    cases as with
    | nil => exact hfirst.trans (h'.first (h.kept hdev).1)
    | cons a as =>
      rw [List.cons_append, List.headD_cons, h.contents_archive h' a List.mem_cons_self]
      exact hfirst

end Streams

/-! ## One file -/

/-- How the writing of a file failed, if it did. -/
def FileEnd.failure? : FileEnd → Option DumpError
  | .failed e => some e
  | .complete | .full => none

/-- What may follow the lines of the written entries: a beginning of the next
batch, if writing that batch failed. -/
def Torn (path : Path) (rest : List Entry) (failure : Option DumpError) (torn : Bytes) : Prop :=
  torn = [] ∨ (∃ cause, failure = some (.writeDump path cause)) ∧
    torn <+: renderAll (rest.take batchSize)

namespace DumpWriter

theorem writeBatches_alters (d : DumpWriter) {place : Place} (hne : place ≠ [])
    (batches : List (List Entry)) (w : World) (hdir : w.disk.node? place ≠ some .directory) :
    Alters w.disk (d.writeBatches place batches w).2.disk place := by
  fun_induction DumpWriter.writeBatches d place batches w with
  | case1 w => exact .refl hdir
  | case2 batch rest w e w' happend =>
    have h := w.append_alters hne hdir (renderAll batch)
    rwa [happend] at h
  | case3 batch rest w w' happend size w'' hsize hfull =>
    have h := w.append_alters hne hdir (renderAll batch)
    rw [happend, ← World.disk_of_size hsize] at h
    exact h
  | case4 batch rest w w' happend size w'' hsize hfull run w''' hrun ih =>
    have h := w.append_alters hne hdir (renderAll batch)
    rw [happend, ← World.disk_of_size hsize] at h
    have hrest := ih h.now
    rw [hrun] at hrest
    exact h.trans hrest
  | case5 batch rest w w' happend e w'' hsize run w''' hrun ih =>
    have h := w.append_alters hne hdir (renderAll batch)
    rw [happend, ← World.disk_of_size hsize] at h
    have hrest := ih h.now
    rw [hrun] at hrest
    exact h.trans hrest

/-- What the writing of batches to an open file has put there: the lines of the
entries it counts, and perhaps a part of the batch that failed. -/
def Puts (d : DumpWriter) (place : Place) (batches : List (List Entry)) (disk : Disk)
    (run : FileRun) (disk' : Disk) : Prop :=
  ∃ torn, Grows disk disk' place (renderAll (batches.flatten.take run.written) ++ torn) ∧
    (torn = [] ∨ ∃ cause done batch rest, run.ended = .failed (.writeDump d.path cause) ∧
      batches = done ++ batch :: rest ∧ run.written = done.flatten.length ∧
      torn <+: renderAll batch)

/-- A batch that is written goes before what the others put into the file. -/
theorem Puts.cons {d : DumpWriter} {place : Place} {batch : List Entry}
    {rest : List (List Entry)} {disk disk' disk'' : Disk} {run : FileRun}
    (hgrows : Grows disk disk' place (renderAll batch)) (h : Puts d place rest disk' run disk'')
    (notices : List Notice) :
    Puts d place (batch :: rest) disk ⟨run.ended, batch.length + run.written, notices⟩ disk'' := by
  obtain ⟨torn, hrest, htorn⟩ := h
  refine ⟨torn, ?_, htorn.imp_right ?_⟩
  · have hboth := hgrows.trans hrest
    rwa [← List.append_assoc, ← renderAll_append,
      ← List.take_length_add_append run.written, ← List.flatten_cons] at hboth
  · rintro ⟨cause, done, batch', rest', hended, rfl, hwritten, hpre⟩
    exact ⟨cause, batch :: done, batch', rest', hended, rfl, by simp [hwritten], hpre⟩

theorem writeBatches_puts (d : DumpWriter) {place : Place} (hne : place ≠ [])
    (batches : List (List Entry)) (w : World) {c : Bytes} {m : Nanos}
    (hfile : w.disk.node? place = some (.file c m)) :
    Puts d place batches w.disk (d.writeBatches place batches w).1
      (d.writeBatches place batches w).2.disk := by
  fun_induction DumpWriter.writeBatches d place batches w generalizing c m with
  | case1 w => exact ⟨[], by simpa [renderAll] using Grows.refl hfile, .inl rfl⟩
  | case2 batch rest w e w' happend =>
    rcases w.append_grows hne hfile (renderAll batch) with ⟨hok, -⟩ | ⟨e', torn, -, hpre, hgrows⟩
    · rw [happend] at hok
      cases hok
    · rw [happend] at hgrows
      exact ⟨torn, by simpa [renderAll] using hgrows,
        .inr ⟨e, [], batch, rest, rfl, rfl, rfl, hpre⟩⟩
  | case3 batch rest w w' happend size w'' hsize hfull =>
    have hgrows := World.grows_of_append_ok hne hfile happend
    rw [← World.disk_of_size hsize] at hgrows
    exact ⟨[], by simpa using hgrows, .inl rfl⟩
  | case4 batch rest w w' happend size w'' hsize hfull run w''' hrun ih =>
    have hgrows := World.grows_of_append_ok hne hfile happend
    rw [← World.disk_of_size hsize] at hgrows
    obtain ⟨m', hfile'⟩ := hgrows.file
    have hrest := ih hfile'
    rw [hrun] at hrest
    exact hrest.cons hgrows _
  | case5 batch rest w w' happend e w'' hsize run w''' hrun ih =>
    have hgrows := World.grows_of_append_ok hne hfile happend
    rw [← World.disk_of_size hsize] at hgrows
    obtain ⟨m', hfile'⟩ := hgrows.file
    have hrest := ih hfile'
    rw [hrun] at hrest
    exact hrest.cons hgrows _

/-- A batch that could not be written is the next one of what is left. -/
theorem torn_of_chunks {entries : List Entry} {done rest : List (List Entry)} {batch : List Entry}
    (hsplit : chunks batchSize entries = done ++ batch :: rest) :
    batch = (entries.drop done.flatten.length).take batchSize := by
  obtain ⟨-, hrest, -⟩ := chunks_eq_append batchSize_pos hsplit
  have hne : entries.drop done.flatten.length ≠ [] := by
    intro hnil
    rw [hnil, chunks_nil] at hrest
    cases hrest
  rw [chunks_of_ne_nil batchSize_pos hne, List.cons.injEq] at hrest
  exact hrest.1

/-- The lines of the entries that one file takes are added through the path. -/
theorem writeFile_streams (d : DumpWriter) (entries : List Entry) (w : World)
    (hs : w.disk.Sound) :
    ∃ torn, Streams d.path w.disk []
        (renderAll (entries.take (d.writeFile entries w).1.written) ++ torn)
        (d.writeFile entries w).2.disk ∧
      Torn d.path (entries.drop (d.writeFile entries w).1.written)
        (d.writeFile entries w).1.ended.failure? torn := by
  unfold writeFile
  split
  · next e w' hopen =>
    rw [World.openAppend_error hopen]
    exact ⟨[], by simpa [renderAll] using Streams.refl hs, .inl rfl⟩
  · next place w' hopen =>
    obtain ⟨ht, hopened⟩ := World.openAppend_ok hopen hs
    have hne := hs.fileTarget_ne_nil ht
    by_cases hdev : w.disk.HasDevice d.path
    · have hbatches := d.writeBatches_alters hne (chunks batchSize entries) w' hopened.now
      exact ⟨[], .of_alters hs ht (hopened.trans hbatches) hdev, .inl rfl⟩
    · have hgrown := World.openAppend_grows hopen hs hdev
      obtain ⟨m, hfile⟩ := hgrown.file
      obtain ⟨torn, hgrows, htorn⟩ :=
        d.writeBatches_puts hne (chunks batchSize entries) w' hfile
      rw [flatten_chunks batchSize_pos] at hgrows
      refine ⟨torn, .of_grows hs ht (hgrown.trans hgrows), htorn.imp_right ?_⟩
      rintro ⟨cause, done, batch, rest, hended, hsplit, hwritten, hpre⟩
      rw [torn_of_chunks hsplit, ← hwritten] at hpre
      exact ⟨⟨cause, by rw [hended]; rfl⟩, hpre⟩

/-! ## Archives -/

/-- The archives that notices tell of. -/
def archives (notices : List Notice) : List Path :=
  notices.filterMap fun
    | .rotated archive => some archive
    | _ => none

theorem archives_append (ns ns' : List Notice) :
    archives (ns ++ ns') = archives ns ++ archives ns' := List.filterMap_append

theorem archives_writeBatches (d : DumpWriter) (place : Place) (batches : List (List Entry))
    (w : World) : archives (d.writeBatches place batches w).1.notices = [] := by
  fun_induction DumpWriter.writeBatches d place batches w with
  | case1 w | case2 | case3 => rfl
  | case4 batch rest w w' _ size w'' _ hfull run w''' hrun ih => rwa [hrun] at ih
  | case5 batch rest w w' _ e w'' _ run w''' hrun ih => rwa [hrun] at ih

theorem archives_writeFile (d : DumpWriter) (entries : List Entry) (w : World) :
    archives (d.writeFile entries w).1.notices = [] := by
  unfold writeFile
  split
  · rfl
  · exact d.archives_writeBatches _ _ _

/-- The archive name that a writer asks for next. -/
def nextArchive (d : DumpWriter) (w : World) : Path :=
  d.path.archive w.localNow d.nextSequence

/-- A rotation renames the file, or changes nothing. -/
theorem rotate_cases (d : DumpWriter) (w : World) :
    (d.rotate w).2.1 = { d with sequence := d.nextSequence } ∧
      ((d.rotate w).1 = .ok (d.nextArchive w) ∧
          w.disk.rename d.path (d.nextArchive w) = .ok (d.rotate w).2.2.disk ∨
        ∃ e, (d.rotate w).1 = .error e ∧ (d.rotate w).2.2.disk = w.disk) := by
  have hcases := w.tick.rename_cases d.path (d.nextArchive w)
  unfold rotate
  simp only
  unfold nextArchive at hcases ⊢
  split
  · next w' hrename =>
    simp only [hrename] at hcases
    rcases hcases with ⟨-, hdisk⟩ | ⟨e, he, -⟩
    · exact ⟨rfl, .inl ⟨rfl, hdisk⟩⟩
    · cases he
  · next e w' hrename =>
    simp only [hrename] at hcases
    rcases hcases with ⟨hok, -⟩ | ⟨e', -, hdisk⟩
    · cases hok
    · exact ⟨rfl, .inr ⟨_, rfl, hdisk⟩⟩

/-- A full file that is archived, or not, uses up a sequence number. -/
theorem writer_archiveFull (d : DumpWriter) (w : World) :
    (d.archiveFull w).2.2.1 = { d with sequence := d.nextSequence } := by
  have hwriter := (d.rotate_cases w).1
  unfold archiveFull
  split <;> next hrotate =>
    rw [hrotate] at hwriter
    exact hwriter

/-- Removing archives makes none. -/
theorem archives_retain (d : DumpWriter) (w : World) : archives (d.retain w).1 = [] := by
  unfold retain
  split
  · rfl
  · split <;> rfl

theorem length_archives_archiveFull (d : DumpWriter) (w : World) :
    (archives (d.archiveFull w).2.1).length = (d.archiveFull w).1 := by
  unfold archiveFull
  split
  · next archive d' w' _ =>
    have hnone := d'.archives_retain w'
    simp only [archives, List.filterMap_cons, List.length_cons] at hnone ⊢
    rw [hnone, List.length_nil]
  · rfl

/-- If archives are kept for ever, a full file moves to the next archive name, or its renaming
fails and nothing happens. -/
theorem archiveFull_cases (d : DumpWriter) (w : World) (hs : w.disk.Sound)
    (hkeep : d.retention = none) (hfree : w.disk.has (d.nextArchive w) = false)
    {place : Place} (ht : w.disk.fileTarget d.path = .ok place) :
    ((d.archiveFull w).2.1 = [.rotated (d.nextArchive w)] ∧
        ∃ t, w.disk.resolve (d.nextArchive w) = .ok ⟨t, .name⟩ ∧
          Moves w.disk (d.archiveFull w).2.2.2.disk place t) ∨
      (∃ e, (d.archiveFull w).2.1 = [.rotationFailed e]) ∧
        (d.archiveFull w).2.2.2.disk = w.disk := by
  obtain ⟨hwriter, hcases⟩ := d.rotate_cases w
  unfold archiveFull
  split
  · next archive d' w' hrotate =>
    rw [hrotate] at hwriter hcases
    rcases hcases with ⟨harchive, hrename⟩ | ⟨e, he, -⟩
    · obtain ⟨t, hres, hmoves⟩ := hs.moves_of_rename ht hfree hrename
      obtain rfl : archive = d.nextArchive w := Except.ok.inj harchive
      obtain rfl : d' = _ := hwriter
      have hretain : retain { d with sequence := d.nextSequence } w' = ([], w') := by
        simp [retain, hkeep]
      simp only [hretain]
      exact .inl ⟨trivial, t, hres, hmoves⟩
    · cases he
  · next e d' w' hrotate =>
    rw [hrotate] at hcases
    rcases hcases with ⟨harchive, -⟩ | ⟨e', -, hdisk⟩
    · cases harchive
    · exact .inr ⟨⟨e, rfl⟩, hdisk⟩

/-- Either way, nothing is added through the path. -/
theorem archiveFull_streams (d : DumpWriter) (w : World) (hs : w.disk.Sound)
    (hkeep : d.retention = none) (hfree : w.disk.has (d.nextArchive w) = false)
    {place : Place} (ht : w.disk.fileTarget d.path = .ok place) :
    Streams d.path w.disk (archives (d.archiveFull w).2.1) [] (d.archiveFull w).2.2.2.disk := by
  rcases d.archiveFull_cases w hs hkeep hfree ht with
    ⟨hnotices, t, hres, hmoves⟩ | ⟨⟨e, hnotices⟩, hdisk⟩
  · rw [hnotices]
    exact .of_moves hs ht hres hmoves
  · rw [hnotices, hdisk]
    exact .refl hs

/-! ## All files -/

/-- A file that is full has been opened. -/
theorem fileTarget_of_full (d : DumpWriter) {entries : List Entry} {w w' : World} {written : Nat}
    {notices : List Notice} (hs : w.disk.Sound)
    (h : d.writeFile entries w = (⟨.full, written, notices⟩, w')) :
    ∃ place, w.disk.fileTarget d.path = .ok place := by
  unfold writeFile at h
  split at h
  · cases h
  · next place w'' hopen => exact ⟨place, (World.openAppend_ok hopen hs).1⟩

/-- A full file that is archived, if archives are kept for ever: the lines of the
entries it took are added through the path. -/
theorem full_streams (d : DumpWriter) {entries : List Entry} {w w' : World} {written : Nat}
    {notices : List Notice} (hs : w.disk.Sound) (hkeep : d.retention = none)
    (hfile : d.writeFile entries w = (⟨.full, written, notices⟩, w'))
    (hfree : w'.disk.has (d.nextArchive w') = false) :
    Streams d.path w.disk (archives (notices ++ (d.archiveFull w').2.1))
      (renderAll (entries.take written)) (d.archiveFull w').2.2.2.disk := by
  obtain ⟨place, ht⟩ := d.fileTarget_of_full hs hfile
  obtain ⟨torn, hstreams, htorn⟩ := d.writeFile_streams entries w hs
  have hnone := d.archives_writeFile entries w
  rw [hfile] at hstreams htorn hnone
  obtain rfl : torn = [] := by
    rcases htorn with hnil | ⟨⟨cause, hfailed⟩, -⟩
    · exact hnil
    · cases hfailed
  have hboth := hstreams.trans (d.archiveFull_streams w' hstreams.sound hkeep hfree
    (hstreams.sameTree.fileTarget ht))
  rwa [List.append_nil, List.append_nil, ← hnone, ← archives_append] at hboth

/-- Of its writer, the writing of entries changes the sequence only. -/
theorem writer_writeEntries (d : DumpWriter) (entries : List Entry) (w : World) :
    ∃ n, (d.writeEntries entries w).2.1 = { d with sequence := n } := by
  fun_induction DumpWriter.writeEntries d entries w with
  | case1 | case2 => exact ⟨_, rfl⟩
  | case3 d entries w written notices w' hfile made more d' w'' harchive rest hrest run d'' w''' hrun ih =>
    have hwriter := d.writer_archiveFull w'
    rw [harchive] at hwriter
    obtain rfl : d' = _ := hwriter
    rw [hrun] at ih
    exact ih
  | case4 d entries w written notices w' hfile made more d' w'' harchive rest hrest =>
    have hwriter := d.writer_archiveFull w'
    rw [harchive] at hwriter
    exact ⟨_, hwriter⟩

theorem fallback_writeEntries (d : DumpWriter) (entries : List Entry) (w : World) :
    (d.writeEntries entries w).2.1.fallback = d.fallback := by
  obtain ⟨n, hn⟩ := d.writer_writeEntries entries w
  rw [hn]

/-- Of its writer, a dump changes the sequence only. -/
theorem writer_dump (d : DumpWriter) (entries : List Entry) (w : World) :
    ∃ n, (d.dump entries w).2.2.1 = { d with sequence := n } := by
  obtain ⟨n, hn⟩ := d.writer_writeEntries entries w
  unfold DumpWriter.dump
  split
  · exact ⟨d.sequence, rfl⟩
  · refine ⟨n, ?_⟩
    split
    · next hrun =>
      rw [hrun] at hn
      exact hn
    · next hrun =>
      rw [hrun] at hn
      dsimp only
      split <;> exact hn

theorem path_dump (d : DumpWriter) (entries : List Entry) (w : World) :
    (d.dump entries w).2.2.1.path = d.path := by
  obtain ⟨n, hn⟩ := d.writer_dump entries w
  rw [hn]

theorem length_archives_writeEntries (d : DumpWriter) (entries : List Entry) (w : World) :
    (archives (d.writeEntries entries w).1.notices).length =
      (d.writeEntries entries w).1.rotations := by
  fun_induction DumpWriter.writeEntries d entries w with
  | case1 d entries w e written notices w' hfile =>
    have hnone := d.archives_writeFile entries w
    rw [hfile] at hnone
    exact congrArg List.length hnone
  | case2 d entries w written notices w' hfile =>
    have hnone := d.archives_writeFile entries w
    rw [hfile] at hnone
    exact congrArg List.length hnone
  | case3 d entries w written notices w' hfile made more d' w'' harchive rest hrest run d'' w''' hrun ih =>
    have hnone := d.archives_writeFile entries w
    have hmade := d.length_archives_archiveFull w'
    rw [hfile] at hnone
    rw [harchive] at hmade
    rw [hrun] at ih
    simp only [archives_append, List.length_append] at hnone hmade ih ⊢
    rw [hnone, hmade, ih, List.length_nil, Nat.zero_add]
  | case4 d entries w written notices w' hfile made more d' w'' harchive rest hrest =>
    have hnone := d.archives_writeFile entries w
    have hmade := d.length_archives_archiveFull w'
    rw [hfile] at hnone
    rw [harchive] at hmade
    simp only [archives_append, List.length_append] at hnone hmade ⊢
    rw [hnone, hmade, List.length_nil, Nat.zero_add]

/-- The archive names that the writing of entries asks for, each with the disk on
which it asks. -/
def requests (d : DumpWriter) (entries : List Entry) (w : World) : List (Path × Disk) :=
  match d.writeFile entries w with
  | (⟨.full, written, _⟩, w) =>
    let (_, _, d', w') := d.archiveFull w
    let rest := entries.drop written
    (d.nextArchive w, w.disk) ::
      if _ : rest ≠ [] ∧ rest.length < entries.length then d'.requests rest w' else []
  | _ => []
termination_by entries.length
decreasing_by
  rename_i h
  exact h.2

/-- If archives are kept for ever and nothing is where one is asked for, the lines
of the written entries are added through the path, whatever fails on the way. -/
theorem writeEntries_streams (d : DumpWriter) (entries : List Entry) (w : World)
    (hs : w.disk.Sound) (hkeep : d.retention = none)
    (hfree : ∀ r ∈ d.requests entries w, r.2.has r.1 = false) :
    ∃ torn, Streams d.path w.disk (archives (d.writeEntries entries w).1.notices)
        (renderAll (entries.take (d.writeEntries entries w).1.written) ++ torn)
        (d.writeEntries entries w).2.2.disk ∧
      Torn d.path (entries.drop (d.writeEntries entries w).1.written)
        (d.writeEntries entries w).1.failure torn := by
  fun_induction DumpWriter.writeEntries d entries w with
  | case1 d entries w e written notices w' hfile =>
    have h := d.writeFile_streams entries w hs
    have hnone := d.archives_writeFile entries w
    rw [hfile] at h hnone
    rw [hnone]
    exact h
  | case2 d entries w written notices w' hfile =>
    have h := d.writeFile_streams entries w hs
    have hnone := d.archives_writeFile entries w
    rw [hfile] at h hnone
    rw [hnone]
    exact h
  | case3 d entries w written notices w' hfile made more d' w'' harchive rest hrest run d'' w''' hrun ih =>
    have hmore : entries.drop written ≠ [] ∧ (entries.drop written).length < entries.length := hrest
    rw [requests, hfile] at hfree
    simp only [harchive, List.forall_mem_cons, dif_pos hmore] at hfree
    have hfull := d.full_streams hs hkeep hfile hfree.1
    have hwriter := d.writer_archiveFull w'
    rw [harchive] at hfull hwriter
    obtain rfl : d' = _ := hwriter
    obtain ⟨torn, hstreams, htorn⟩ := ih hfull.sound hkeep hfree.2
    rw [hrun] at hstreams htorn
    refine ⟨torn, ?_, ?_⟩
    · have hboth := hfull.trans hstreams
      rwa [← archives_append, ← List.append_assoc, ← renderAll_append, ← List.take_add] at hboth
    · rwa [← List.drop_drop]
  | case4 d entries w written notices w' hfile made more d' w'' harchive rest hrest =>
    rw [requests, hfile] at hfree
    simp only [harchive, List.forall_mem_cons] at hfree
    have hfull := d.full_streams hs hkeep hfile hfree.1
    rw [harchive] at hfull
    exact ⟨[], by rwa [List.append_nil], .inl rfl⟩

end DumpWriter

end LogPipeline
