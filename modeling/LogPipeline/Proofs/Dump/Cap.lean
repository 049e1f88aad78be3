import LogPipeline.Proofs.Dump.Account

/-!
# The size cap

The size of the dump file is looked at after each batch. So a file takes batches as long as
it is below the cap, and at least one (`Paced`); then it is archived, and the next file begins
empty. A dump in which nothing fails divides its batches in this way over the archives it
makes and the dump file, which is below the cap or not there when it ends
(`DumpWriter.dump_keeps_cap`).
-/

namespace LogPipeline

open Disk (Moves)

/-! ## Batches in one file -/

/-- A file that held some bytes was below a cap before each of its batches but the first. -/
def Paced (cap : Nat) (start : Bytes) (batches : List (List Entry)) : Prop :=
  ∀ before batch after, batches = before ++ batch :: after → before ≠ [] →
    (start ++ renderAll before.flatten).length < cap

section Paced

variable {cap : Nat} {start : Bytes} {batch : List Entry} {batches : List (List Entry)}

theorem paced_nil : Paced cap start [] := fun before _ _ h _ => by
  simp at h

theorem paced_singleton : Paced cap start [batch] := fun before _ _ h hne => by
  cases before with
  | nil => exact (hne rfl).elim
  | cons _ before => simp at h

/-- A file below the cap may take more. -/
theorem Paced.cons (hbelow : (start ++ renderAll batch).length < cap)
    (h : Paced cap (start ++ renderAll batch) batches) : Paced cap start (batch :: batches) := by
  intro before batch' after hsplit hne
  cases before with
  | nil => exact (hne rfl).elim
  | cons first before =>
    obtain ⟨rfl, hrest⟩ := List.cons.inj hsplit
    rw [List.flatten_cons, renderAll_append, ← List.append_assoc]
    by_cases hnil : before = []
    · simpa [hnil, renderAll] using hbelow
    · exact h before batch' after hrest hnil

/-- A file at the cap takes one batch. -/
theorem Paced.length_le_one (h : Paced cap start batches) (hstart : cap ≤ start.length) :
    batches.length ≤ 1 := by
  match batches with
  | [] | [_] => simp
  | first :: second :: rest =>
    have hbelow := h [first] second rest rfl (by simp)
    rw [List.length_append] at hbelow
    omega

end Paced

theorem World.size_of_file {w w' : World} {place : Place} {contents : Bytes} {modified : Nanos}
    {n : Nat} (hfile : w.disk.node? place = some (.file contents modified))
    (h : w.size place = (.ok n, w')) : n = contents.length := by
  unfold World.size at h
  split at h
  · cases h
  · simp only [hfile] at h
    cases h
    rfl

namespace DumpWriter

/-- Of some batches a file takes all, and stays below the cap, or so many that it is full. -/
def Takes (cap : Nat) (start : Bytes) (batches : List (List Entry)) (run : FileRun) : Prop :=
  ∃ done rest, batches = done ++ rest ∧ run.written = done.flatten.length ∧
    Paced cap start done ∧
    (run.ended = .complete ∧ rest = [] ∧
        (done ≠ [] → (start ++ renderAll done.flatten).length < cap) ∨
      run.ended = .full ∧ done ≠ [] ∧ cap ≤ (start ++ renderAll done.flatten).length)

theorem writeBatches_takes (d : DumpWriter) {place : Place} (hne : place ≠ [])
    (batches : List (List Entry)) (w : World) {c : Bytes} {m : Nanos}
    (hfile : w.disk.node? place = some (.file c m))
    (hended : (d.writeBatches place batches w).1.ended.failure? = none)
    (hnotices : (d.writeBatches place batches w).1.notices = []) :
    Takes d.cap.toNat c batches (d.writeBatches place batches w).1 := by
  fun_induction DumpWriter.writeBatches d place batches w generalizing c m with
  | case1 w =>
    exact ⟨[], [], rfl, rfl, paced_nil, .inl ⟨rfl, rfl, fun h => (h rfl).elim⟩⟩
  | case2 batch rest w e w' happend => cases hended
  | case3 batch rest w w' happend size w'' hsize hfull =>
    obtain ⟨m', hgrown⟩ := (World.grows_of_append_ok hne hfile happend).file
    rw [Disk.bytesAt_of_file hfile] at hgrown
    obtain rfl := World.size_of_file hgrown hsize
    exact ⟨[batch], rest, rfl, by simp, paced_singleton, .inr ⟨rfl, by simp, by simpa using hfull⟩⟩
  | case4 batch rest w w' happend size w'' hsize hfull run w''' hrun ih =>
    obtain ⟨m', hgrown⟩ := (World.grows_of_append_ok hne hfile happend).file
    rw [Disk.bytesAt_of_file hfile] at hgrown
    obtain rfl := World.size_of_file hgrown hsize
    rw [← World.disk_of_size hsize] at hgrown
    rw [hrun] at ih
    obtain ⟨done, after, rfl, hwritten, hpaced, hend⟩ := ih hgrown hended hnotices
    refine ⟨batch :: done, after, rfl, ?_, .cons (Nat.lt_of_not_le hfull) hpaced, ?_⟩
    · rw [List.flatten_cons, List.length_append, ← hwritten]
    rw [List.flatten_cons, renderAll_append, ← List.append_assoc]
    rcases hend with ⟨hcomplete, hnil, hbelow⟩ | ⟨hfull', -, hreached⟩
    · refine .inl ⟨hcomplete, hnil, fun _ => ?_⟩
      by_cases hdone : done = []
      · simpa [hdone, renderAll] using hfull
      · exact hbelow hdone
    · exact .inr ⟨hfull', by simp, hreached⟩
  | case5 batch rest w w' happend e w'' hsize run w''' hrun ih => cases hnotices

theorem writeFile_takes (d : DumpWriter) (entries : List Entry) (w : World)
    (hs : w.disk.Sound) (hdev : ¬w.disk.HasDevice d.path)
    (hended : (d.writeFile entries w).1.ended.failure? = none)
    (hnotices : (d.writeFile entries w).1.notices = []) :
    Takes d.cap.toNat (w.disk.contents d.path) (chunks batchSize entries)
      (d.writeFile entries w).1 := by
  unfold writeFile at hended hnotices ⊢
  split
  · next e w' hopen =>
    rw [hopen] at hended
    cases hended
  · next place w' hopen =>
    rw [hopen] at hended hnotices
    obtain ⟨ht, -⟩ := World.openAppend_ok hopen hs
    obtain ⟨m, hfile⟩ := (World.openAppend_grows hopen hs hdev).file
    rw [List.append_nil, ← Disk.contents_of_fileTarget ht] at hfile
    exact d.writeBatches_takes (hs.fileTarget_ne_nil ht) _ w' hfile hended hnotices

end DumpWriter

/-! ## Full files -/

/-- A disk without devices has none at any path. -/
theorem Disk.not_hasDevice_of_nodes {d : Disk}
    (h : ∀ e ∈ d.nodes, ∀ takes, e.2 ≠ .device takes) (p : Path) : ¬d.HasDevice p := by
  rintro ⟨place, takes, ht, hnode⟩
  by_cases hnil : place = []
  · simp [hnil, node?_nil] at hnode
  · rw [node?_of_ne_nil d hnil, List.lookup_eq_some_iff] at hnode
    obtain ⟨before, after, hnodes, -⟩ := hnode
    exact h (place, .device takes) (by simp [hnodes]) takes rfl

theorem Disk.contents_of_not_has {d : Disk} {p : Path} (h : d.has p = false) :
    d.contents p = [] := by
  cases ht : d.fileTarget p with
  | error e => exact contents_of_fileTarget_error ht
  | ok place =>
    obtain ⟨hres, hdir⟩ := fileTarget_eq_ok_iff.1 ht
    rw [contents_of_fileTarget ht]
    refine bytesAt_of_none ?_
    simp only [has, hres] at h
    split at h
    · cases h
    · cases h
    · assumption

namespace DumpWriter

/-- Nothing has failed in a dump. A file that cannot be opened, written, measured or renamed
is told of, so that all notices are of archives. -/
def Smooth (notices : List Notice) : Prop := ∀ n ∈ notices, ∃ a, n = .rotated a

theorem Smooth.eq_nil {notices : List Notice} (h : Smooth notices)
    (harchives : archives notices = []) : notices = [] := by
  cases notices with
  | nil => rfl
  | cons n notices =>
    obtain ⟨a, rfl⟩ := h n List.mem_cons_self
    simp [archives] at harchives

/-- A full file that is archived is not at its path any more. -/
theorem archiveFull_frees (d : DumpWriter) (w : World) (hs : w.disk.Sound)
    (hkeep : d.retention = none) (hfree : w.disk.has (d.nextArchive w) = false)
    {place : Place} (ht : w.disk.fileTarget d.path = .ok place)
    (hsmooth : Smooth (d.archiveFull w).2.1) :
    archives (d.archiveFull w).2.1 = [d.nextArchive w] ∧
      (d.archiveFull w).2.2.2.disk.has d.path = false := by
  rcases d.archiveFull_cases w hs hkeep hfree ht with
    ⟨hnotices, t, -, hmoves⟩ | ⟨⟨e, hnotices⟩, -⟩
  · have hgone : (d.archiveFull w).2.2.2.disk.node? place = none := by
      rw [hmoves.nodes, if_neg hmoves.ne, if_pos rfl]
    obtain ⟨hres, -⟩ := Disk.fileTarget_eq_ok_iff.1 (hmoves.sameTree.fileTarget ht)
    refine ⟨by rw [hnotices]; rfl, ?_⟩
    simp only [Disk.has, hres, hgone]
  · rw [hnotices] at hsmooth
    obtain ⟨a, ha⟩ := hsmooth _ List.mem_cons_self
    cases ha

end DumpWriter

/-- An archive was not there before it was made. -/
theorem Streams.made {path : Path} {disk disk' : Disk} {archived : List Path} {bytes : Bytes}
    (h : Streams path disk archived bytes disk') :
    ∀ a ∈ archived, disk.has a = false ∧ disk'.has a = true := fun a ha => by
  obtain ⟨t, ht, -, hfree, hmade⟩ := h.archive a ha
  obtain ⟨hres, -⟩ := Disk.fileTarget_eq_ok_iff.1 ht
  obtain ⟨hres', hdir⟩ := Disk.fileTarget_eq_ok_iff.1 (h.sameTree.fileTarget ht)
  refine ⟨by simp only [Disk.has, hres, hfree], ?_⟩
  obtain ⟨node, hnode⟩ := Option.ne_none_iff_exists'.1 hmade
  cases node <;> simp [Disk.has, hres', hnode, Target.asDirectory]

/-! ## The files of a dump -/

/-- What a dump puts into one file: what the file held, and the batches it received. -/
structure Share where
  path : Path
  start : Bytes
  batches : List (List Entry)

def Share.bytes (s : Share) : Bytes := s.start ++ renderAll s.batches.flatten

/-- A file that has reached the cap with the last of its batches, and not before. -/
structure Share.Filled (cap : Nat) (disk : Disk) (s : Share) : Prop where
  holds : disk.contents s.path = s.bytes
  some : s.batches ≠ []
  paced : Paced cap s.start s.batches
  reached : cap ≤ s.bytes.length

/-- How a dump divides its entries: the archives it made, each with its share, and the dump
file with the last one. -/
structure Division (path : Path) (cap : Nat) (entries : List Entry) (disk disk' : Disk)
    (archived : List Path) (shares : List Share) (last : Share) : Prop where
  paths : shares.map (·.path) = archived
  /-- No two archives are the same file. -/
  apart : archived.Pairwise fun a b => ¬disk.Meets a b
  /-- Every file receives whole batches. -/
  batches : (shares ++ [last]).flatMap (·.batches) = chunks batchSize entries
  /-- The first file carries on what the dump file held, and the others begin empty. -/
  starts : (shares ++ [last]).map (·.start) =
    disk.contents path :: List.replicate shares.length []
  filled : ∀ s ∈ shares, s.Filled cap disk'
  at_path : last.path = path
  holds : disk'.contents path = last.bytes
  paced : Paced cap last.start last.batches
  /-- The dump file is not there, or below the cap. -/
  below : last.batches = [] ∧ disk'.has path = false ∨ last.bytes.length < cap

namespace Division

variable {path : Path} {cap : Nat} {entries rest : List Entry} {disk disk' disk'' : Disk}
  {archived : List Path} {shares : List Share} {s last : Share} {bytes bytes' : Bytes}

/-- No entries are left for a dump file that is not there. -/
theorem nil (h : disk.has path = false) : Division path cap [] disk disk [] [] ⟨path, [], []⟩ where
  paths := rfl
  apart := .nil
  batches := by simp [chunks_nil]
  starts := by simp [Disk.contents_of_not_has h]
  filled := nofun
  at_path := rfl
  holds := Disk.contents_of_not_has h
  paced := paced_nil
  below := .inl ⟨rfl, h⟩

/-- A file that is filled and archived comes before what follows. -/
theorem cons (hfirst : Streams path disk [s.path] bytes disk')
    (hrest : Streams path disk' archived bytes' disk'') (hfilled : s.Filled cap disk')
    (hstart : s.start = disk.contents path) (hempty : disk'.contents path = [])
    (hsplit : chunks batchSize entries = s.batches ++ chunks batchSize rest)
    (h : Division path cap rest disk' disk'' archived shares last) :
    Division path cap entries disk disk'' (s.path :: archived) (s :: shares) last where
  paths := by rw [List.map_cons, h.paths]
  apart := by
    refine List.pairwise_cons.2 ⟨fun b hb hmeets => ?_, h.apart.imp fun hne hmeets => hne ?_⟩
    · -- the first archive is there when the other one is asked for
      obtain ⟨t, ha, hb'⟩ := hmeets
      obtain ⟨t', ha', -, -, hmade⟩ := hfirst.archive s.path (by simp)
      obtain ⟨t'', hb'', -, hfree, -⟩ := hrest.archive b hb
      cases ha.symm.trans ha'
      cases (hfirst.sameTree.fileTarget hb').symm.trans hb''
      exact hmade hfree
    · obtain ⟨t, ha, hb⟩ := hmeets
      exact ⟨t, hfirst.sameTree.fileTarget ha, hfirst.sameTree.fileTarget hb⟩
  batches := by rw [List.cons_append, List.flatMap_cons, h.batches, hsplit]
  starts := by
    rw [List.cons_append, List.map_cons, h.starts, hstart, hempty, List.length_cons,
      List.replicate_succ]
  filled := by
    refine List.forall_mem_cons.2 ⟨⟨?_, hfilled.some, hfilled.paced, hfilled.reached⟩, h.filled⟩
    rw [hfirst.contents_archive hrest s.path (by simp), hfilled.holds]
  at_path := h.at_path
  holds := h.holds
  paced := h.paced
  below := h.below

/-- A dump file at the cap is archived after one batch. -/
theorem first_of_full (h : Division path cap entries disk disk' archived shares last)
    (hne : entries ≠ []) (hfull : cap ≤ (disk.contents path).length) :
    shares.head?.map (·.batches.length) = some 1 := by
  have hstarts := h.starts
  cases shares with
  | nil =>
    have hstart : last.start = disk.contents path := (List.cons.inj hstarts).1
    have hbatches := h.batches
    rw [List.nil_append, List.flatMap_singleton, chunks_of_ne_nil batchSize_pos hne] at hbatches
    rcases h.below with ⟨hnil, -⟩ | hbelow
    · rw [hnil] at hbatches
      cases hbatches
    · rw [Share.bytes, hstart, List.length_append] at hbelow
      omega
  | cons s shares =>
    have hstart : s.start = disk.contents path := (List.cons.inj hstarts).1
    have hfilled := h.filled s List.mem_cons_self
    have hle := hfilled.paced.length_le_one (by rwa [hstart])
    have hpos := List.length_pos_iff.2 hfilled.some
    simp only [List.head?_cons, Option.map_some, Option.some.injEq]
    omega

end Division

namespace DumpWriter

/-- The dump file with all the batches, if it does not become full. -/
theorem complete_divides (d : DumpWriter) {entries : List Entry} {w w' : World} {written : Nat}
    {notices : List Notice} (hne : entries ≠ []) (hs : w.disk.Sound)
    (hdev : ¬w.disk.HasDevice d.path)
    (hfile : d.writeFile entries w = (⟨.complete, written, notices⟩, w'))
    (hsmooth : Smooth notices) :
    ∃ last, Division d.path d.cap.toNat entries w.disk w'.disk [] [] last := by
  have hnone := d.archives_writeFile entries w
  obtain ⟨torn, hstreams, htorn⟩ := d.writeFile_streams entries w hs
  have htakes := d.writeFile_takes entries w hs hdev
  rw [hfile] at hnone hstreams htorn htakes
  obtain rfl : torn = [] := by
    rcases htorn with hnil | ⟨⟨cause, hfailed⟩, -⟩
    · exact hnil
    · cases hfailed
  obtain ⟨done, rest, hsplit, hwritten, hpace, ⟨-, rfl, hbelow⟩ | ⟨hfull, -⟩⟩ :=
    htakes rfl (hsmooth.eq_nil hnone)
  · obtain ⟨htake, -⟩ := chunks_eq_append batchSize_pos hsplit
    have hdone : done ≠ [] := by
      rw [chunks_of_ne_nil batchSize_pos hne, List.append_nil] at hsplit
      simp [← hsplit]
    have hholds := (hstreams.kept hdev).2
    simp only at hwritten
    rw [hwritten, ← htake, List.append_nil] at hholds
    exact ⟨⟨d.path, w.disk.contents d.path, done⟩, rfl, .nil, by simpa using hsplit.symm,
      rfl, nofun, rfl, by simpa [Disk.reading, Share.bytes] using hholds, hpace, .inr (hbelow hdone)⟩
  · cases hfull

/-- The first archive, made of the dump file when it has become full. -/
theorem full_share (d : DumpWriter) {entries : List Entry} {w w' : World} {written : Nat}
    {notices : List Notice} (hs : w.disk.Sound) (hdev : ¬w.disk.HasDevice d.path)
    (hkeep : d.retention = none)
    (hfile : d.writeFile entries w = (⟨.full, written, notices⟩, w'))
    (hfree : w'.disk.has (d.nextArchive w') = false)
    (hsmooth : Smooth (notices ++ (d.archiveFull w').2.1)) :
    ∃ s : Share, archives (notices ++ (d.archiveFull w').2.1) = [s.path] ∧
      s.start = w.disk.contents d.path ∧
      chunks batchSize entries = s.batches ++ chunks batchSize (entries.drop written) ∧
      s.Filled d.cap.toNat (d.archiveFull w').2.2.2.disk ∧
      (d.archiveFull w').2.2.2.disk.has d.path = false := by
  obtain ⟨hsmooth, hsmooth'⟩ := List.forall_mem_append.1 hsmooth
  obtain ⟨place, ht⟩ := d.fileTarget_of_full hs hfile
  obtain ⟨torn, hstreams, -⟩ := d.writeFile_streams entries w hs
  have hnone := d.archives_writeFile entries w
  have htakes := d.writeFile_takes entries w hs hdev
  have hfull := d.full_streams hs hkeep hfile hfree
  rw [hfile] at hnone htakes hstreams
  obtain ⟨hmade, hgone⟩ := d.archiveFull_frees w' hstreams.sound hkeep hfree
    (hstreams.sameTree.fileTarget ht) hsmooth'
  have harchives : archives (notices ++ (d.archiveFull w').2.1) = [d.nextArchive w'] := by
    rw [archives_append, hnone, hmade, List.nil_append]
  obtain ⟨done, rest, hsplit, hwritten, hpace, ⟨hcomplete, -⟩ | ⟨-, hdone, hreached⟩⟩ :=
    htakes rfl (Smooth.eq_nil hsmooth hnone)
  · cases hcomplete
  · obtain ⟨htake, hrest, -⟩ := chunks_eq_append batchSize_pos hsplit
    simp only at hwritten
    refine ⟨⟨d.nextArchive w', w.disk.contents d.path, done⟩, ?_, rfl, ?_,
      ⟨?_, hdone, hpace, hreached⟩, hgone⟩
    · rw [harchives]
    · rw [hsplit, hrest, hwritten]
    · have hholds := (hfull.kept hdev).2
      rw [harchives, hwritten, ← htake, Disk.reading, Disk.contents_of_not_has hgone] at hholds
      simpa [Share.bytes] using hholds

/-- If archives are kept for ever, nothing is where one is asked for and nothing fails, every
file is archived when it is full. -/
theorem writeEntries_divides (d : DumpWriter) {entries : List Entry} (hne : entries ≠ [])
    (w : World) (hs : w.disk.Sound) (hdev : ¬w.disk.HasDevice d.path) (hkeep : d.retention = none)
    (hfree : ∀ r ∈ d.requests entries w, r.2.has r.1 = false)
    (hfailure : (d.writeEntries entries w).1.failure = none)
    (hsmooth : Smooth (d.writeEntries entries w).1.notices) :
    ∃ shares last, Division d.path d.cap.toNat entries w.disk (d.writeEntries entries w).2.2.disk
      (archives (d.writeEntries entries w).1.notices) shares last := by
  have hcounts := d.writeEntries_counts entries w
  fun_induction DumpWriter.writeEntries d entries w with
  | case1 d entries w e written notices w' hfile => cases hfailure
  | case2 d entries w written notices w' hfile =>
    have hnone := d.archives_writeFile entries w
    rw [hfile] at hnone
    obtain ⟨last, hdivision⟩ := d.complete_divides hne hs hdev hfile hsmooth
    exact ⟨[], last, by rwa [hnone]⟩
  | case3 d entries w written notices w' hfile made more d' w'' harchive rest hrest run d'' w''' hrun ih =>
    have hmore : entries.drop written ≠ [] ∧ (entries.drop written).length < entries.length := hrest
    rw [requests, hfile] at hfree
    simp only [harchive, List.forall_mem_cons, dif_pos hmore] at hfree
    obtain ⟨hsmooth, hsmooth'⟩ := List.forall_mem_append.1 hsmooth
    have hwriter := d.writer_archiveFull w'
    have hfull := d.full_streams hs hkeep hfile hfree.1
    have hshare := d.full_share hs hdev hkeep hfile hfree.1
    rw [harchive] at hwriter hfull hshare
    obtain rfl : d' = _ := hwriter
    obtain ⟨s, harchives, hstart, hsplit, hfilled, hgone⟩ := hshare hsmooth
    obtain ⟨torn, hstreams, -⟩ := writeEntries_streams { d with sequence := d.nextSequence } rest
      w'' hfull.sound hkeep hfree.2
    have hcounts' := writeEntries_counts { d with sequence := d.nextSequence } rest w''
    rw [hrun] at ih hstreams hcounts'
    obtain ⟨shares, last, hdivision⟩ := ih hrest.1 hfull.sound (hfull.kept hdev).1 hkeep hfree.2
      hfailure hsmooth' hcounts'
    rw [harchives] at hfull
    refine ⟨s :: shares, last, ?_⟩
    rw [archives_append, harchives]
    exact .cons hfull hstreams hfilled hstart (Disk.contents_of_not_has hgone) hsplit hdivision
  | case4 d entries w written notices w' hfile made more d' w'' harchive rest hrest =>
    rw [requests, hfile] at hfree
    simp only [harchive, List.forall_mem_cons] at hfree
    have hfull := d.full_streams hs hkeep hfile hfree.1
    have hshare := d.full_share hs hdev hkeep hfile hfree.1
    rw [harchive] at hfull hshare
    obtain ⟨s, harchives, hstart, hsplit, hfilled, hgone⟩ := hshare hsmooth
    have hall : written = entries.length := hcounts.written_of_none rfl
    rw [hall, List.drop_length] at hsplit
    rw [harchives] at hfull
    refine ⟨[s], ⟨d.path, [], []⟩, ?_⟩
    rw [harchives]
    exact .cons hfull (.refl hfull.sound) hfilled hstart (Disk.contents_of_not_has hgone) hsplit
      (.nil hgone)

/-- A dump in which nothing fails is the writing of its entries. -/
theorem dump_of_smooth (d : DumpWriter) {entries : List Entry} (hne : entries ≠ []) (w : World)
    (h : Smooth (d.dump entries w).2.1) :
    (d.writeEntries entries w).1.failure = none ∧
      (d.dump entries w).2.1 = (d.writeEntries entries w).1.notices ∧
      (d.dump entries w).2.2.2 = (d.writeEntries entries w).2.2 := by
  unfold dump at h ⊢
  rw [if_neg hne] at h ⊢
  split
  · next written rotations notices d' w' hrun =>
    rw [hrun]
    exact ⟨rfl, rfl, rfl⟩
  · next e written rotations notices d' w' hrun =>
    rw [hrun] at h
    -- a failure is told of before the fallback file is opened
    have hspill : ∀ more, ¬Smooth (notices ++ [.spilling e (entries.drop written).length
        d'.fallback] ++ more) := fun more hsmooth => by
      obtain ⟨a, ha⟩ := hsmooth (.spilling e (entries.drop written).length d'.fallback) (by simp)
      cases ha
    simp only at h
    split at h
    · exact (hspill [] (by simpa using h)).elim
    · exact (hspill _ h).elim

/-- A dump in which nothing fails, to a file of any size, whatever the cap: every archive has
received whole batches, at least one, and has reached the cap with the last of them, and the
dump file is below the cap or not there. The archives are the files that have been made, and
they are counted. A file at the cap is archived after one more batch. -/
theorem dump_keeps_cap (d : DumpWriter) {entries : List Entry} (hne : entries ≠ []) (w : World)
    (hs : w.disk.Sound) (hdev : ¬w.disk.HasDevice d.path) (hkeep : d.retention = none)
    (hfree : ∀ r ∈ d.requests entries w, r.2.has r.1 = false)
    (hsmooth : Smooth (d.dump entries w).2.1) :
    let disk' := (d.dump entries w).2.2.2.disk
    ∃ shares last, Division d.path d.cap.toNat entries w.disk disk'
        (archives (d.dump entries w).2.1) shares last ∧
      (d.dump entries w).1.rotations = shares.length ∧
      (disk'.has d.path = false ∨ (disk'.contents d.path).length < d.cap.toNat) ∧
      (∀ s ∈ shares, w.disk.has s.path = false ∧ disk'.has s.path = true) ∧
      (∀ q, w.disk.fileTarget d.path ≠ .ok q →
        (∀ s ∈ shares, w.disk.fileTarget s.path ≠ .ok q) → disk'.node? q = w.disk.node? q) ∧
      (d.cap.toNat ≤ (w.disk.contents d.path).length →
        shares.head?.map (·.batches.length) = some 1) := by
  obtain ⟨hfailure, hnotices, hworld⟩ := d.dump_of_smooth hne w hsmooth
  obtain ⟨-, hrotations, -⟩ := d.dump_cases hne w
  obtain ⟨torn, hstreams, -⟩ := d.writeEntries_streams entries w hs hkeep hfree
  rw [hnotices] at hsmooth ⊢
  rw [hworld, hrotations, ← d.length_archives_writeEntries]
  obtain ⟨shares, last, h⟩ :=
    d.writeEntries_divides hne w hs hdev hkeep hfree hfailure hsmooth
  have hpaths : ∀ s ∈ shares, s.path ∈ archives (d.writeEntries entries w).1.notices :=
    fun s hmem => h.paths ▸ List.mem_map_of_mem hmem
  refine ⟨shares, last, h, by rw [← h.paths, List.length_map], ?_,
    fun s hmem => hstreams.made s.path (hpaths s hmem), fun q hq hqs => hstreams.others q hq ?_,
    h.first_of_full hne⟩
  · rcases h.below with ⟨-, hgone⟩ | hbelow
    · exact .inl hgone
    · exact .inr (h.holds ▸ hbelow)
  · rw [← h.paths]
    simpa using hqs

/-- A file that is longer than its cap receives a batch of a hundred entries and is archived,
and the last entry fills another one. -/
theorem dump_keeps_cap_of_overfull :
    let d := DumpWriter.new ⟨"app.log"⟩ 3
    let entries := List.replicate 101 (Entry.tagged (.utc 0) .info "a" [])
    let w := World.calm (Disk.put ⟨[], []⟩ ["app.log"] (.file (Text.encode "long") 0)) fun _ => 0
    w.disk.Sound ∧ ¬w.disk.HasDevice d.path ∧
      (∀ r ∈ d.requests entries w, r.2.has r.1 = false) ∧ Smooth (d.dump entries w).2.1 ∧
      (d.dump entries w).1.rotations = 2 ∧
      ∃ shares last, Division d.path 3 entries w.disk (d.dump entries w).2.2.2.disk
          (archives (d.dump entries w).2.1) shares last ∧ shares.length = 2 ∧
        shares.head?.map (·.batches.length) = some 1 := by
  intro d entries w
  have hs : w.disk.Sound := (Disk.alters_put (by simp) (by decide +kernel) (by simp)).sound
    Disk.sound_empty ⟨[], _, rfl, Disk.node?_nil _⟩
  have hdev : ¬w.disk.HasDevice d.path :=
    Disk.not_hasDevice_of_nodes (by simp [w, World.calm, Disk.put]) _
  have hfree : ∀ r ∈ d.requests entries w, r.2.has r.1 = false := by decide +kernel
  have hnotices : (d.dump entries w).2.1 = [.rotated ⟨"app_700101_000000_00001.log"⟩,
      .rotated ⟨"app_700101_000000_00002.log"⟩] := by decide +kernel
  have hsmooth : Smooth (d.dump entries w).2.1 := by simp [hnotices, Smooth]
  obtain ⟨shares, last, h, hcount, -, -, -, hfirst⟩ :=
    d.dump_keeps_cap (by simp [entries]) w hs hdev rfl hfree hsmooth
  have htwo : (d.dump entries w).1.rotations = 2 := by decide +kernel
  exact ⟨hs, hdev, hfree, hsmooth, htwo, shares, last, h, hcount ▸ htwo,
    hfirst (by decide +kernel)⟩

end DumpWriter

end LogPipeline
