import LogPipeline.Proofs.Dump.Bytes

/-!
# The account of a dump

What a dump reports is what the files show: every entry is written, spilled or
lost, the written ones stand in order in the archives and the dump file, and the
spilled ones at the end of the fallback file (`dump_account`). The disk between
the two parts of a dump, when the dump file is done with and the fallback file is
not yet opened, is the one on which the archives are read: nothing keeps a
fallback path from being the name of an archive.
-/

namespace LogPipeline

open Disk (Alters Grows SameTree)

namespace Disk

/-- Two paths that lead to the same file. -/
def Meets (d : Disk) (p q : Path) : Prop :=
  ∃ place, d.fileTarget p = .ok place ∧ d.fileTarget q = .ok place

theorem Meets.symm {d : Disk} {p q : Path} (h : d.Meets p q) : d.Meets q p := by
  obtain ⟨place, hp, hq⟩ := h
  exact ⟨place, hq, hp⟩

theorem not_meets {d : Disk} {p q : Path}
    (h : (d.fileTarget p).toOption ≠ (d.fileTarget q).toOption) : ¬d.Meets p q := by
  rintro ⟨place, hp, hq⟩
  rw [hp, hq] at h
  exact h rfl

/-- A path shows the same contents while nothing happens at its place. -/
theorem SameTree.contents_eq {d d' : Disk} (h : SameTree d d') {p : Path}
    (hnode : ∀ q, d.fileTarget p = .ok q → d'.node? q = d.node? q) :
    d'.contents p = d.contents p := by
  cases ht : d.fileTarget p with
  | ok q =>
    rw [contents_of_fileTarget ht, contents_of_fileTarget (h.fileTarget ht)]
    exact bytesAt_congr (hnode q ht)
  | error e =>
    cases ht' : d'.fileTarget p with
    | ok q =>
      rw [h.symm.fileTarget ht'] at ht
      cases ht
    | error e' => rw [contents_of_fileTarget_error ht, contents_of_fileTarget_error ht']

end Disk

/-! ## The fallback file -/

section Fallback

variable {path : Path} {entries : List Entry} {w : World}

theorem writeFallback_alters (path : Path) (entries : List Entry) (hs : w.disk.Sound) :
    (writeFallback path entries w).2.disk = w.disk ∨
      ∃ place, w.disk.fileTarget path = .ok place ∧
        Alters w.disk (writeFallback path entries w).2.disk place := by
  unfold writeFallback
  split
  · next e w' hopen => exact .inl (World.openAppend_error hopen)
  · next place w' hopen =>
    obtain ⟨ht, hopened⟩ := World.openAppend_ok hopen hs
    have hwritten := w'.append_alters (hs.fileTarget_ne_nil ht) hopened.now (renderAll entries)
    refine .inr ⟨place, ht, ?_⟩
    split <;> next happend =>
      rw [happend] at hwritten
      exact hopened.trans hwritten

/-- Only the fallback file changes. -/
theorem contents_writeFallback (hs : w.disk.Sound) {p : Path} (hp : ¬w.disk.Meets p path) :
    (writeFallback path entries w).2.disk.contents p = w.disk.contents p := by
  rcases writeFallback_alters path entries hs with hsame | ⟨place, ht, h⟩
  · rw [hsame]
  · refine h.sameTree.contents_eq fun q hq => h.others q ?_
    rintro rfl
    exact hp ⟨q, hq, ht⟩

/-- Entries that the fallback file takes are added to it. -/
theorem contents_of_writeFallback_ok {w' : World} (hs : w.disk.Sound)
    (hdev : ¬w.disk.HasDevice path) (h : writeFallback path entries w = (.ok (), w')) :
    w'.disk.contents path = w.disk.contents path ++ renderAll entries := by
  unfold writeFallback at h
  split at h
  · cases h
  · next place w'' hopen =>
    obtain ⟨ht, -⟩ := World.openAppend_ok hopen hs
    have hopened := World.openAppend_grows hopen hs hdev
    obtain ⟨m, hfile⟩ := hopened.file
    split at h
    · cases h
    · next w''' happend =>
      cases h
      have hgrows := hopened.trans
        (World.grows_of_append_ok (hs.fileTarget_ne_nil ht) hfile happend)
      rw [Disk.contents_of_fileTarget ht,
        Disk.contents_of_fileTarget (hgrows.sameTree.fileTarget ht), hgrows.bytesAt]
      rfl

end Fallback

namespace DumpWriter

/-! ## The whole dump -/

/-- The disk when a dump is done with its own file and has not yet opened the
fallback file. -/
def diskBetween (d : DumpWriter) (entries : List Entry) (w : World) : Disk :=
  (d.writeEntries entries w).2.2.disk

/-- A dump writes its own file, and then the fallback file if something is left. -/
theorem dump_cases (d : DumpWriter) {entries : List Entry} (hne : entries ≠ []) (w : World) :
    (d.dump entries w).1.written = (d.writeEntries entries w).1.written ∧
      (d.dump entries w).1.rotations = (d.writeEntries entries w).1.rotations ∧
      archives (d.dump entries w).2.1 = archives (d.writeEntries entries w).1.notices ∧
      ((d.dump entries w).1.spilled = 0 ∧
          (d.dump entries w).2.2.2.disk = d.diskBetween entries w ∨
        ∃ fallback, fallback = writeFallback d.fallback
            (entries.drop (d.writeEntries entries w).1.written) (d.writeEntries entries w).2.2 ∧
          (d.dump entries w).2.2.2.disk = fallback.2.disk ∧
          (0 < (d.dump entries w).1.spilled → fallback.1 = .ok ())) := by
  have hfallback := d.fallback_writeEntries entries w
  unfold dump diskBetween
  rw [if_neg hne]
  split
  · next written rotations notices d' w' hrun =>
    simp only [hrun]
    exact ⟨trivial, trivial, trivial, .inl ⟨trivial, trivial⟩⟩
  · next e written rotations notices d' w' hrun =>
    rw [hrun] at hfallback
    simp only at hfallback
    simp only [hrun, hfallback]
    split
    · next w'' hspill =>
      refine ⟨rfl, rfl, ?_, .inr ⟨_, rfl, ?_⟩⟩
      · rw [archives_append]
        exact List.append_nil _
      · rw [hspill]
        exact ⟨rfl, fun _ => rfl⟩
    · next e' w'' hspill =>
      refine ⟨rfl, rfl, ?_, .inr ⟨_, rfl, ?_⟩⟩
      · rw [archives_append, archives_append]
        exact (List.append_nil _).trans (List.append_nil _)
      · rw [hspill]
        exact ⟨rfl, fun h => absurd h (Nat.lt_irrefl 0)⟩

/-- The report of a dump, its notices and its disk, held against what the files
show. -/
structure Account (d : DumpWriter) (entries : List Entry) (w : World) (report : DumpReport)
    (notices : List Notice) (disk : Disk) : Prop where
  /-- Every entry is in one of the three counts. -/
  total : report.written + report.spilled + report.lost = entries.length
  /-- Batches are written as a whole. -/
  whole : report.written = entries.length ∨ batchSize ∣ report.written
  /-- What is left goes to one place. -/
  together : report.spilled = 0 ∨ report.lost = 0
  /-- Something is left unless all is written. -/
  complete : report.spilled = 0 ∧ report.lost = 0 ↔ report.written = entries.length
  /-- As many archives are named as are counted. -/
  rotations : (archives notices).length = report.rotations
  /-- The archives and the dump file hold the written entries in order; a part of
  the next batch follows only if writing it failed. -/
  written : ¬w.disk.HasDevice d.path → ∃ torn,
    (d.diskBetween entries w).reading (archives notices) d.path =
      w.disk.contents d.path ++ renderAll (entries.take report.written) ++ torn ∧
    Torn d.path (entries.drop report.written) (d.writeEntries entries w).1.failure torn
  /-- No other file has changed so far. -/
  others : ∀ p, ¬w.disk.Meets p d.path → (∀ a ∈ archives notices, ¬w.disk.Meets p a) →
    (d.diskBetween entries w).contents p = w.disk.contents p
  /-- The fallback file gains the spilled entries. -/
  spilled : 0 < report.spilled → ¬(d.diskBetween entries w).HasDevice d.fallback →
    disk.contents d.fallback =
      (d.diskBetween entries w).contents d.fallback ++ renderAll (entries.drop report.written)
  /-- No other file changes from then on. -/
  apart : ∀ p, ¬w.disk.Meets p d.fallback → disk.contents p = (d.diskBetween entries w).contents p

/-- If archives are kept for ever and nothing is where one is asked for, a dump
accounts for its entries. -/
theorem account (d : DumpWriter) {entries : List Entry} (hne : entries ≠ []) (w : World)
    (hs : w.disk.Sound) (hkeep : d.retention = none)
    (hfree : ∀ r ∈ d.requests entries w, r.2.has r.1 = false) :
    Account d entries w (d.dump entries w).1 (d.dump entries w).2.1
      (d.dump entries w).2.2.2.disk := by
  obtain ⟨htotal, hwhole, htogether, hcomplete⟩ := d.dump_counts hne w
  obtain ⟨hwritten, hrotations, harchives, hfiles⟩ := d.dump_cases hne w
  obtain ⟨torn, hstreams, htorn⟩ := d.writeEntries_streams entries w hs hkeep hfree
  rw [← harchives, ← hwritten] at hstreams
  rw [← hwritten] at htorn
  refine ⟨htotal, hwhole, htogether, hcomplete, ?_, fun hdev => ⟨torn, ?_, htorn⟩, fun p hp ha => ?_,
    fun hpos hdev => ?_, fun p hp => ?_⟩
  · rw [harchives, hrotations]
    exact d.length_archives_writeEntries entries w
  · rw [List.append_assoc]
    exact (hstreams.kept hdev).2
  · refine hstreams.sameTree.contents_eq fun q hq => hstreams.others q ?_ ?_
    · exact fun hpath => hp ⟨q, hq, hpath⟩
    · exact fun a hmem hqa => ha a hmem ⟨q, hq, hqa⟩
  · rcases hfiles with ⟨hzero, -⟩ | ⟨fallback, hspill, hdisk, hok⟩
    · omega
    · rw [hdisk, hwritten]
      refine contents_of_writeFallback_ok hstreams.sound hdev (hspill.symm.trans ?_)
      exact Prod.ext (hok hpos) rfl
  · rcases hfiles with ⟨-, hdisk⟩ | ⟨fallback, hspill, hdisk, -⟩
    · rw [hdisk]
    · rw [hdisk, hspill]
      refine contents_writeFallback hstreams.sound fun ⟨q, hq, hfall⟩ => hp ⟨q, ?_, ?_⟩
      · exact hstreams.sameTree.symm.fileTarget hq
      · exact hstreams.sameTree.symm.fileTarget hfall

/-- The account of a dump whose fallback path does not lead to its own file: every
entry is written in order, spilled in order, or counted as lost. A file that could
not be renamed is as it was. -/
theorem dump_accounts_for_entries (d : DumpWriter) {entries : List Entry} (hne : entries ≠ [])
    (w : World) (hs : w.disk.Sound) (hkeep : d.retention = none)
    (hfree : ∀ r ∈ d.requests entries w, r.2.has r.1 = false)
    (hapart : ¬w.disk.Meets d.path d.fallback) :
    Account d entries w (d.dump entries w).1 (d.dump entries w).2.1
        (d.dump entries w).2.2.2.disk ∧
      (d.dump entries w).2.2.2.disk.contents d.path = (d.diskBetween entries w).contents d.path ∧
      ((∀ a ∈ archives (d.dump entries w).2.1, ¬w.disk.Meets a d.fallback) →
        (d.dump entries w).2.2.2.disk.reading (archives (d.dump entries w).2.1) d.path =
            (d.diskBetween entries w).reading (archives (d.dump entries w).2.1) d.path ∧
          (d.diskBetween entries w).contents d.fallback = w.disk.contents d.fallback) ∧
      ∀ v e, (d.rotate v).1 = .error e → (d.rotate v).2.2.disk = v.disk := by
  have h := d.account hne w hs hkeep hfree
  refine ⟨h, h.apart d.path hapart, fun harchives => ⟨?_, ?_⟩, fun v e he => ?_⟩
  · have hsame : ∀ a ∈ archives (d.dump entries w).2.1,
        (d.dump entries w).2.2.2.disk.contents a = (d.diskBetween entries w).contents a :=
      fun a ha => h.apart a (harchives a ha)
    rw [Disk.reading, Disk.reading, h.apart d.path hapart, List.flatMap_def,
      List.map_congr_left hsame, ← List.flatMap_def]
  · exact h.others d.fallback (fun hmeets => hapart hmeets.symm)
      fun a ha hmeets => harchives a ha hmeets.symm
  · rcases (d.rotate_cases v).2 with ⟨hok, -⟩ | ⟨e', -, hdisk⟩
    · rw [hok] at he
      cases he
    · exact hdisk

/-- A dump file that is archived after its only entry. -/
theorem dump_accounts_for_entries_archived :
    let d := DumpWriter.new ⟨"app.log"⟩ 0
    let e := Entry.tagged (.utc 0) .info "a" []
    let w := World.calm ⟨[], []⟩ fun _ => 0
    (∀ r ∈ d.requests [e] w, r.2.has r.1 = false) ∧ ¬w.disk.Meets d.path d.fallback ∧
      (d.dump [e] w).1 = ⟨1, 0, 0, 1⟩ ∧
      Account d [e] w (d.dump [e] w).1 (d.dump [e] w).2.1 (d.dump [e] w).2.2.2.disk := by
  intro d e w
  have hfree : ∀ r ∈ d.requests [e] w, r.2.has r.1 = false := by decide +kernel
  have hapart : ¬w.disk.Meets d.path d.fallback := Disk.not_meets (by decide +kernel)
  exact ⟨hfree, hapart, by decide +kernel,
    (d.dump_accounts_for_entries (by simp) w Disk.sound_empty rfl hfree hapart).1⟩

end DumpWriter

end LogPipeline
