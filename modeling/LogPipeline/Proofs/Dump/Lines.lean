import LogPipeline.Proofs.Dump.Rotation

/-!
# Lines of a dump

The lines of a batch are added to what the dump file holds, and a write that fails may
leave a part of one. So an entry that is counted as written stands at the beginning of a
line in the dump file or an archive, but for the first one of a dump whose file ended amid
a line before (`written_begin_lines`). Only a dump in which a write to the dump file has
failed leaves the file so.
-/

namespace LogPipeline

open Disk (Grows Keeps SameTree)

/-! ## Beginnings of lines -/

/-- Whether what follows some bytes begins a line. -/
def BeginsLine (front : Bytes) : Prop := front = [] ∨ front.getLast? = some 10

instance (front : Bytes) : Decidable (BeginsLine front) :=
  inferInstanceAs (Decidable (_ ∨ _))

theorem encode_render (e : Entry) :
    Text.encode e.render = Text.encode (e.opening ++ e.message) ++ [10] := by
  simp [Entry.render, Text.encode]
  rfl

theorem beginsLine_append (front : Bytes) {es : List Entry} (hne : es ≠ []) :
    BeginsLine (front ++ renderAll es) := by
  obtain ⟨es, e, rfl⟩ := List.eq_nil_or_concat es |>.resolve_left hne
  right
  simp [renderAll, encode_render]

/-- What a dump has put into the file it writes to, `old` being what the file held when it
began: the lines of the entries after the first `j`, which have gone to archives with
`old` unless there are none. -/
def IsFront (old : Bytes) (es : List Entry) (front : Bytes) : Prop :=
  ∃ j, j ≤ es.length ∧ front = (if j = 0 then old else []) ++ renderAll (es.drop j)

namespace IsFront

variable {old mid front : Bytes} {es es' : List Entry}

theorem all (old : Bytes) (es : List Entry) : IsFront old es (old ++ renderAll es) :=
  ⟨0, Nat.zero_le _, by simp⟩

/-- A file that begins anew after some entries. -/
theorem anew (old : Bytes) (hne : es ≠ []) : IsFront old es [] :=
  ⟨es.length, Nat.le_refl _, by simp [hne, renderAll]⟩

theorem trans (h : IsFront old es mid) (h' : IsFront mid es' front) :
    IsFront old (es ++ es') front := by
  obtain ⟨j, hj, rfl⟩ := h
  obtain ⟨j', hj', rfl⟩ := h'
  by_cases hzero : j' = 0
  · refine ⟨j, by simp; omega, ?_⟩
    rw [if_pos hzero, hzero, List.drop_zero, List.append_assoc, ← renderAll_append,
      ← List.drop_append_of_le_length hj]
  · refine ⟨es.length + j', by simpa using hj', ?_⟩
    rw [if_neg hzero, if_neg (by omega), List.drop_length_add_append]

/-- What comes next begins a line, unless nothing has been written after an end amid one. -/
theorem beginsLine_iff (h : IsFront old es front) :
    BeginsLine front ↔ es ≠ [] ∨ BeginsLine old := by
  obtain ⟨j, hj, rfl⟩ := h
  by_cases hnil : es.drop j = []
  · rw [hnil]
    by_cases hzero : j = 0
    · rw [hzero, List.drop_zero] at hnil
      simp [hzero, hnil, renderAll]
    · have hne : es ≠ [] := by
        rintro rfl
        exact hzero (Nat.le_zero.1 hj)
      simp [hzero, hne, renderAll, BeginsLine]
  · have hne : es ≠ [] := by
      rintro rfl
      exact hnil List.drop_nil
    exact iff_of_true (beginsLine_append _ hnil) (.inl hne)

end IsFront

/-! ## Files that stay, and one that is archived -/

theorem Disk.Keeps.contents {d d' : Disk} (h : Keeps id d d') (ht : SameTree d d') (f : Path) :
    d.contents f <+: d'.contents f := by
  cases hf : d.fileTarget f with
  | ok q =>
    rw [contents_of_fileTarget hf, contents_of_fileTarget (ht.fileTarget hf)]
    exact h q
  | error e =>
    rw [contents_of_fileTarget_error hf]
    exact List.nil_prefix

theorem Disk.SameTree.meets {d d' : Disk} (h : SameTree d d') {p q : Path} :
    d'.Meets p q ↔ d.Meets p q := by
  constructor
  · rintro ⟨place, hp, hq⟩
    exact ⟨place, h.symm.fileTarget hp, h.symm.fileTarget hq⟩
  · rintro ⟨place, hp, hq⟩
    exact ⟨place, h.fileTarget hp, h.fileTarget hq⟩

/-- One disk is another after dumps to the file of a path, which have made some archives:
other files still begin with what they held, and so does the first archive with what the
dump file held. -/
structure Carries (path : Path) (disk : Disk) (archived : List Path) (disk' : Disk) : Prop where
  sound : disk'.Sound
  sameTree : SameTree disk disk'
  apart : ∀ a ∈ archived, ¬disk.Meets a path
  others : ∀ f, ¬disk.Meets f path → disk.contents f <+: disk'.contents f
  device : ¬disk.HasDevice path → ¬disk'.HasDevice path
  first : ¬disk.HasDevice path → disk.contents path <+: disk'.contents (archived.headD path)

namespace Carries

variable {path : Path} {disk disk' disk'' : Disk} {as bs : List Path}

theorem refl (hs : disk.Sound) : Carries path disk [] disk :=
  ⟨hs, .refl disk, nofun, fun _ _ => List.prefix_refl _, id, fun _ => List.prefix_refl _⟩

theorem of_streams {bytes : Bytes} (h : Streams path disk as bytes disk') :
    Carries path disk as disk' where
  sound := h.sound
  sameTree := h.sameTree
  apart a ha := by
    obtain ⟨t, ht, hpath, -⟩ := h.archive a ha
    rintro ⟨q, hq, hqpath⟩
    rw [ht] at hq
    cases hq
    exact hpath hqpath
  others f hf := by
    cases hq : disk.fileTarget f with
    | error e =>
      rw [Disk.contents_of_fileTarget_error hq]
      exact List.nil_prefix
    | ok q =>
      rw [Disk.contents_of_fileTarget hq, Disk.contents_of_fileTarget (h.sameTree.fileTarget hq)]
      by_cases hmade : ∃ a ∈ as, disk.fileTarget a = .ok q
      · obtain ⟨a, ha, haq⟩ := hmade
        obtain ⟨t, ht, -, hfree, -⟩ := h.archive a ha
        rw [haq] at ht
        cases ht
        rw [Disk.bytesAt_of_none hfree]
        exact List.nil_prefix
      · have hother := h.others q (fun hpath => hf ⟨q, hq, hpath⟩) fun a ha haq =>
          hmade ⟨a, ha, haq⟩
        simpa only [Disk.bytesAt_congr hother] using List.prefix_refl _
  device hdev := (h.kept hdev).1
  first := h.first

theorem trans (h : Carries path disk as disk') (h' : Carries path disk' bs disk'') :
    Carries path disk (as ++ bs) disk'' where
  sound := h'.sound
  sameTree := h.sameTree.trans h'.sameTree
  apart := List.forall_mem_append.2 ⟨h.apart, fun b hb hmeets =>
    h'.apart b hb (h.sameTree.meets.2 hmeets)⟩
  others f hf := (h.others f hf).trans (h'.others f fun hmeets => hf (h.sameTree.meets.1 hmeets))
  device hdev := h'.device (h.device hdev)
  first hdev := by
    have hfirst := h.first hdev
    cases as with
    | nil => exact hfirst.trans (h'.first (h.device hdev))
    | cons a as =>
      refine hfirst.trans (h'.others a fun hmeets => h.apart a List.mem_cons_self ?_)
      exact h.sameTree.meets.1 hmeets

theorem headD_mem (as : List Path) (path : Path) : as.headD path ∈ as ++ [path] := by
  cases as <;> simp

/-- What is in the dump file or an archive stays in one of them. -/
theorem exists_prefix (h : Carries path disk as disk') (h' : Carries path disk' bs disk'')
    (hdev : ¬disk'.HasDevice path) {f : Path} (hf : f ∈ as ++ [path]) :
    ∃ g ∈ as ++ bs ++ [path], disk'.contents f <+: disk''.contents g := by
  rcases List.mem_append.1 hf with hf | hf
  · refine ⟨f, by simp [hf], h'.others f fun hmeets => h.apart f hf ?_⟩
    exact h.sameTree.meets.1 hmeets
  · obtain rfl := List.mem_singleton.1 hf
    refine ⟨bs.headD f, ?_, h'.first hdev⟩
    rw [List.append_assoc]
    exact List.mem_append_right as (headD_mem bs f)

end Carries

/-- The fallback file is opened, or grows by the lines of the entries or the first of their
bytes. -/
theorem writeFallback_grows (path : Path) (entries : List Entry) {w : World} (hs : w.disk.Sound)
    (hdev : ¬w.disk.HasDevice path) :
    (writeFallback path entries w).2.disk = w.disk ∨ ∃ place bytes,
      w.disk.fileTarget path = .ok place ∧ bytes <+: renderAll entries ∧
        Grows w.disk (writeFallback path entries w).2.disk place bytes := by
  unfold writeFallback
  split
  · next e w' hopen => exact .inl (World.openAppend_error hopen)
  · next place w' hopen =>
    obtain ⟨ht, -⟩ := World.openAppend_ok hopen hs
    have hopened := World.openAppend_grows hopen hs hdev
    obtain ⟨m, hfile⟩ := hopened.file
    have hwritten : ∃ bytes, bytes <+: renderAll entries ∧
        Grows w'.disk (w'.append place (renderAll entries)).2.disk place bytes := by
      rcases w'.append_grows (hs.fileTarget_ne_nil ht) hfile (renderAll entries) with
        ⟨-, hgrows⟩ | ⟨e, torn, -, hpre, hgrows⟩
      · exact ⟨_, List.prefix_refl _, hgrows⟩
      · exact ⟨_, hpre, hgrows⟩
    obtain ⟨bytes, hpre, hgrows⟩ := hwritten
    refine .inr ⟨place, [] ++ bytes, ht, hpre, ?_⟩
    split <;> next happend =>
      rw [happend] at hgrows
      exact hopened.trans hgrows

theorem writeFallback_carries (path fallback : Path) (entries : List Entry) {w : World}
    (hs : w.disk.Sound) : Carries path w.disk [] (writeFallback fallback entries w).2.disk := by
  have hrotating := writeFallback_rotating fallback entries hs
  have halters := writeFallback_alters fallback entries hs
  have htree : SameTree w.disk (writeFallback fallback entries w).2.disk := by
    rcases halters with hsame | ⟨place, -, h⟩
    · rw [hsame]
      exact .refl _
    · exact h.sameTree
  have hcontents := Disk.Keeps.contents (hrotating.keeps nofun) htree
  refine ⟨hrotating.sound, htree, nofun, fun f _ => hcontents f, fun hdev => ?_, fun _ => hcontents path⟩
  rintro ⟨q, takes, hq, hnode⟩
  have hq' := htree.symm.fileTarget hq
  by_cases hfall : w.disk.fileTarget fallback = .ok q
  · -- the fallback file is the dump file
    have hdev' : ¬w.disk.HasDevice fallback := fun ⟨r, takes', hr, hrnode⟩ => by
      rw [hfall] at hr
      cases hr
      exact hdev ⟨q, takes', hq', hrnode⟩
    rcases writeFallback_grows fallback entries hs hdev' with hsame | ⟨place, bytes, ht, -, hgrows⟩
    · rw [hsame] at hnode
      exact hdev ⟨q, takes, hq', hnode⟩
    · rw [hfall] at ht
      cases ht
      obtain ⟨m, hfile⟩ := hgrows.file
      rw [hfile] at hnode
      cases hnode
  · rcases halters with hsame | ⟨place, ht, h⟩
    · rw [hsame] at hnode
      exact hdev ⟨q, takes, hq', hnode⟩
    · rw [h.others q fun heq => hfall (heq ▸ ht)] at hnode
      exact hdev ⟨q, takes, hq', hnode⟩

namespace Streams

/-- A file that has been archived, and nothing written since, leaves nothing behind. -/
theorem contents_of_archived {path : Path} {disk disk' : Disk} {as : List Path}
    (h : Streams path disk as [] disk') (hdev : ¬disk.HasDevice path) (hne : as ≠ []) : disk'.contents path = [] := by
  obtain ⟨a, as, rfl⟩ := List.exists_cons_of_ne_nil hne
  have hread := congrArg List.length (h.kept hdev).2
  have hlen := (h.first hdev).length_le
  simp only [Disk.reading, List.flatMap_cons, List.length_append, List.headD_cons,
    List.append_nil] at hread hlen
  exact List.eq_nil_of_length_eq_zero (by omega)

end Streams

/-! ## The files of one dump -/

theorem renderAll_take_succ {es : List Entry} {k : Nat} {e : Entry} (he : es[k]? = some e) :
    renderAll (es.take (k + 1)) = renderAll (es.take k) ++ Text.encode e.render := by
  rw [List.take_add_one, he, renderAll_append]
  simp [renderAll]

theorem renderAll_take_below (es : List Entry) (k : Nat) :
    renderAll (es.take k) <+: renderAll es := by
  conv => rhs; rw [← List.take_append_drop k es, renderAll_append]
  exact List.prefix_append _ _

/-- The files that a dump leaves after the lines of some entries: each line is in one of
them, and the last of them ends with a torn part. -/
structure Lined (path : Path) (disk : Disk) (archived : List Path) (entries : List Entry)
    (torn : Bytes) (disk' : Disk) : Prop where
  line : ∀ k e, entries[k]? = some e → ∃ f ∈ archived ++ [path], ∃ front,
    IsFront (disk.contents path) (entries.take k) front ∧
      front ++ Text.encode e.render <+: disk'.contents f
  last : ∃ front, IsFront (disk.contents path) entries front ∧ disk'.contents path = front ++ torn

namespace Lined

variable {path : Path} {disk disk' disk'' : Disk} {as bs : List Path} {es es' : List Entry}
  {torn : Bytes}

/-- Lines that have been added to the dump file. -/
theorem of_contents (h : disk'.contents path = disk.contents path ++ renderAll es ++ torn) :
    Lined path disk [] es torn disk' where
  line k e he := by
    refine ⟨path, by simp, _, .all _ (es.take k), ?_⟩
    rw [h, List.append_assoc, ← renderAll_take_succ he, List.append_assoc]
    refine (List.prefix_append_right_inj _).2 ?_
    exact (renderAll_take_below es (k + 1)).trans (List.prefix_append _ _)
  last := ⟨_, .all _ es, h⟩

/-- The dump file may be archived after some lines. -/
theorem archive (h : Lined path disk as es [] disk') (hdev : ¬disk'.HasDevice path)
    (hcarries : Carries path disk as disk') (hmoved : Streams path disk' bs [] disk'')
    (hne : es ≠ []) : Lined path disk (as ++ bs) es [] disk'' where
  line k e he := by
    obtain ⟨f, hf, front, hfront, hpre⟩ := h.line k e he
    obtain ⟨g, hg, hlater⟩ := hcarries.exists_prefix (.of_streams hmoved) hdev hf
    exact ⟨g, hg, front, hfront, hpre.trans hlater⟩
  last := by
    by_cases hbs : bs = []
    · obtain ⟨front, hfront, hlast⟩ := h.last
      have hsame := (hmoved.kept hdev).2
      refine ⟨front, hfront, ?_⟩
      rw [← hlast, ← List.append_nil (disk'.contents path), ← hsame, hbs]
      rfl
    · exact ⟨[], .anew _ hne, hmoved.contents_of_archived hdev hbs⟩

/-- More lines may follow. -/
theorem trans (h : Lined path disk as es [] disk') (hdev : ¬disk'.HasDevice path)
    (hcarries : Carries path disk as disk') (hmore : Carries path disk' bs disk'')
    (h' : Lined path disk' bs es' torn disk'') :
    Lined path disk (as ++ bs) (es ++ es') torn disk'' := by
  obtain ⟨mid, hmid, hcontents⟩ := h.last
  rw [List.append_nil] at hcontents
  rw [← hcontents] at hmid
  refine ⟨fun k e he => ?_, ?_⟩
  · by_cases hk : k < es.length
    · rw [List.getElem?_append_left hk] at he
      obtain ⟨f, hf, front, hfront, hpre⟩ := h.line k e he
      obtain ⟨g, hg, hlater⟩ := hcarries.exists_prefix hmore hdev hf
      refine ⟨g, hg, front, ?_, hpre.trans hlater⟩
      rwa [List.take_append_of_le_length (Nat.le_of_lt hk)]
    · have hle := Nat.le_of_not_lt hk
      rw [List.getElem?_append_right hle] at he
      obtain ⟨f, hf, front, hfront, hpre⟩ := h'.line _ e he
      refine ⟨f, ?_, front, ?_, hpre⟩
      · rw [List.append_assoc]
        exact List.mem_append_right as hf
      · rw [List.take_append, List.take_of_length_le hle]
        exact hmid.trans hfront
  · obtain ⟨front, hfront, hlast⟩ := h'.last
    exact ⟨front, hmid.trans hfront, hlast⟩

end Lined

namespace DumpWriter

/-- A dump leaves whole lines, and a torn part only if a write has failed. -/
theorem writeFile_lined (d : DumpWriter) (entries : List Entry) (w : World) (hs : w.disk.Sound)
    (hdev : ¬w.disk.HasDevice d.path) :
    ∃ torn, Lined d.path w.disk [] (entries.take (d.writeFile entries w).1.written) torn
        (d.writeFile entries w).2.disk ∧
      Torn d.path (entries.drop (d.writeFile entries w).1.written)
        (d.writeFile entries w).1.ended.failure? torn := by
  obtain ⟨torn, hstreams, htorn⟩ := d.writeFile_streams entries w hs
  refine ⟨torn, .of_contents ?_, htorn⟩
  rw [List.append_assoc, ← (hstreams.kept hdev).2]
  rfl

/-- A full file leaves whole lines, whether it is archived or not. -/
theorem full_lined (d : DumpWriter) {entries : List Entry} {w w' : World} {written : Nat}
    {notices : List Notice} (hs : w.disk.Sound) (hkeep : d.retention = none)
    (hdev : ¬w.disk.HasDevice d.path) (hne : entries ≠ [])
    (hfile : d.writeFile entries w = (⟨.full, written, notices⟩, w'))
    (hfree : w'.disk.has (d.nextArchive w') = false) :
    Lined d.path w.disk (archives (notices ++ (d.archiveFull w').2.1)) (entries.take written) []
      (d.archiveFull w').2.2.2.disk := by
  obtain ⟨place, ht⟩ := d.fileTarget_of_full hs hfile
  obtain ⟨torn, hstreams, htorn⟩ := d.writeFile_streams entries w hs
  obtain ⟨torn', hlined, htorn'⟩ := d.writeFile_lined entries w hs hdev
  have hpos := (d.writeFile_counts entries w).full
  have hnone := d.archives_writeFile entries w
  rw [hfile] at hstreams hlined htorn' hnone hpos
  obtain rfl : torn' = [] := by
    rcases htorn' with hnil | ⟨⟨cause, hfailed⟩, -⟩
    · exact hnil
    · cases hfailed
  have htake : entries.take written ≠ [] := by
    have := hpos rfl hne
    simp only at this
    simp [hne]
    omega
  have hmoved := d.archiveFull_streams w' hstreams.sound hkeep hfree (hstreams.sameTree.fileTarget ht)
  have hboth := hlined.archive (hstreams.kept hdev).1 (.of_streams hstreams) hmoved htake
  rwa [archives_append, hnone]

theorem writeEntries_lined (d : DumpWriter) (entries : List Entry) (w : World)
    (hs : w.disk.Sound) (hkeep : d.retention = none) (hdev : ¬w.disk.HasDevice d.path)
    (hne : entries ≠ []) (hfree : ∀ r ∈ d.requests entries w, r.2.has r.1 = false) :
    ∃ torn, Lined d.path w.disk (archives (d.writeEntries entries w).1.notices)
        (entries.take (d.writeEntries entries w).1.written) torn
        (d.writeEntries entries w).2.2.disk ∧
      Torn d.path (entries.drop (d.writeEntries entries w).1.written)
        (d.writeEntries entries w).1.failure torn := by
  fun_induction DumpWriter.writeEntries d entries w with
  | case1 d entries w e written notices w' hfile =>
    have h := d.writeFile_lined entries w hs hdev
    have hnone := d.archives_writeFile entries w
    rw [hfile] at h hnone
    rw [hnone]
    exact h
  | case2 d entries w written notices w' hfile =>
    have h := d.writeFile_lined entries w hs hdev
    have hnone := d.archives_writeFile entries w
    rw [hfile] at h hnone
    rw [hnone]
    exact h
  | case3 d entries w written notices w' hfile made more d' w'' harchive rest hrest run d'' w''' hrun ih =>
    have hmore : entries.drop written ≠ [] ∧ (entries.drop written).length < entries.length := hrest
    rw [requests, hfile] at hfree
    simp only [harchive, List.forall_mem_cons, dif_pos hmore] at hfree
    have hfull := d.full_lined hs hkeep hdev hne hfile hfree.1
    have hstream := d.full_streams hs hkeep hfile hfree.1
    have hwriter := d.writer_archiveFull w'
    rw [harchive] at hfull hstream hwriter
    have hpath : d'.path = d.path := by rw [show d' = _ from hwriter]
    have hkeep' : d'.retention = none := by rw [show d' = _ from hwriter, hkeep]
    have hdev' := (hstream.kept hdev).1
    obtain ⟨torn, hlined, htorn⟩ := ih hstream.sound hkeep' (hpath ▸ hdev') hmore.1 hfree.2
    obtain ⟨torn', hstream', -⟩ := d'.writeEntries_streams _ w'' hstream.sound hkeep' hfree.2
    rw [hrun, hpath] at hlined htorn hstream'
    refine ⟨torn, ?_, ?_⟩
    · have hboth := hfull.trans hdev' (.of_streams hstream) (.of_streams hstream') hlined
      rwa [← archives_append, ← List.take_add] at hboth
    · rwa [← List.drop_drop]
  | case4 d entries w written notices w' hfile made more d' w'' harchive rest hrest =>
    rw [requests, hfile] at hfree
    simp only [harchive, List.forall_mem_cons] at hfree
    have hfull := d.full_lined hs hkeep hdev hne hfile hfree.1
    rw [harchive] at hfull
    exact ⟨[], hfull, .inl rfl⟩

end DumpWriter

/-! ## One dump of a run -/

/-- A dump of some entries by a writer in a world. -/
structure DumpCall where
  writer : DumpWriter
  entries : List Entry
  world : World

namespace DumpCall

def report (c : DumpCall) : DumpReport := (c.writer.dump c.entries c.world).1

/-- The archives that the dump makes. -/
def archived (c : DumpCall) : List Path :=
  DumpWriter.archives (c.writer.dump c.entries c.world).2.1

/-- Why the dump file did not take all entries, if it did not. -/
def failure (c : DumpCall) : Option DumpError :=
  (c.writer.writeEntries c.entries c.world).1.failure

/-- The world after the dump. -/
def after (c : DumpCall) : World := (c.writer.dump c.entries c.world).2.2.2

/-- A dump that has written all its entries does not come to the fallback file. -/
theorem disk_after_of_written {c : DumpCall} (h : c.report.written = c.entries.length)
    (hne : c.entries ≠ []) :
    c.after.disk = (c.writer.writeEntries c.entries c.world).2.2.disk := by
  have hcounts := c.writer.writeEntries_counts c.entries c.world
  unfold after
  unfold report at h
  rw [DumpWriter.dump, if_neg hne] at h ⊢
  split
  · next hrun => rw [hrun]
  · next e written rotations notices d' w' hrun =>
    rw [hrun] at hcounts
    have hlt : written < c.entries.length := hcounts.lt_of_some e rfl hne
    have hall : written = c.entries.length := by
      rw [hrun] at h
      simp only at h
      split at h <;> exact h
    omega

/-- A dump to a file by a writer that keeps its archives for ever, where nothing is in
the place of an archive. -/
structure Ready (c : DumpCall) : Prop where
  sound : c.world.disk.Sound
  retention : c.writer.retention = none
  file : ¬c.world.disk.HasDevice c.writer.path
  free : ∀ r ∈ c.writer.requests c.entries c.world, r.2.has r.1 = false

namespace Ready

variable {c : DumpCall}

/-- The disk when the dump file is done with, and the fallback file after it. -/
theorem between (h : c.Ready) (hne : c.entries ≠ []) :
    Carries c.writer.path c.world.disk c.archived (c.writer.diskBetween c.entries c.world) ∧
      Carries c.writer.path (c.writer.diskBetween c.entries c.world) [] c.after.disk := by
  obtain ⟨-, -, harchives, hfiles⟩ := c.writer.dump_cases hne c.world
  obtain ⟨torn, hstreams, -⟩ :=
    c.writer.writeEntries_streams c.entries c.world h.sound h.retention h.free
  rw [archived, harchives]
  refine ⟨.of_streams hstreams, ?_⟩
  rcases hfiles with ⟨-, hdisk⟩ | ⟨fallback, rfl, hdisk, -⟩
  · rw [after, hdisk]
    exact .refl hstreams.sound
  · rw [after, hdisk]
    exact writeFallback_carries _ _ _ hstreams.sound

theorem carries (h : c.Ready) : Carries c.writer.path c.world.disk c.archived c.after.disk := by
  by_cases hne : c.entries = []
  · rw [archived, after, hne]
    exact .refl h.sound
  · obtain ⟨hown, hfallback⟩ := h.between hne
    have hboth := hown.trans hfallback
    rwa [List.append_nil] at hboth

/-- Each entry that is counted as written is in the dump file or an archive. -/
theorem line (h : c.Ready) {k : Nat} {e : Entry} (he : c.entries[k]? = some e)
    (hk : k < c.report.written) :
    ∃ f ∈ c.archived ++ [c.writer.path], ∃ front,
      IsFront (c.world.disk.contents c.writer.path) (c.entries.take k) front ∧
        front ++ Text.encode e.render <+: c.after.disk.contents f := by
  have hne : c.entries ≠ [] := by
    rintro hnil
    simp [hnil] at he
  obtain ⟨hown, hfallback⟩ := h.between hne
  obtain ⟨torn, hlined, -⟩ := c.writer.writeEntries_lined c.entries c.world h.sound h.retention
    h.file hne h.free
  obtain ⟨hwritten, -, harchives, -⟩ := c.writer.dump_cases hne c.world
  rw [← hwritten, ← harchives] at hlined
  have hlined : Lined c.writer.path c.world.disk c.archived (c.entries.take c.report.written) torn
    (c.writer.diskBetween c.entries c.world) := hlined
  obtain ⟨f, hf, front, hfront, hpre⟩ := hlined.line k e (by rwa [List.getElem?_take_of_lt hk])
  obtain ⟨g, hg, hlater⟩ := hown.exists_prefix hfallback (hown.device h.file) hf
  rw [List.append_nil] at hg
  rw [List.take_take, Nat.min_eq_left (Nat.le_of_lt hk)] at hfront
  exact ⟨g, hg, front, hfront, hpre.trans hlater⟩

/-- The dump file ends with a line unless a write to it has failed. -/
theorem beginsLine (h : c.Ready)
    (hapart : ¬c.world.disk.Meets c.writer.path c.writer.fallback)
    (hbegins : BeginsLine (c.world.disk.contents c.writer.path))
    (hfailure : ∀ cause, c.failure ≠ some (.writeDump c.writer.path cause)) :
    BeginsLine (c.after.disk.contents c.writer.path) := by
  by_cases hne : c.entries = []
  · rw [after, hne]
    exact hbegins
  · obtain ⟨torn, hlined, htorn⟩ := c.writer.writeEntries_lined c.entries c.world h.sound
      h.retention h.file hne h.free
    obtain rfl : torn = [] := htorn.resolve_right fun ⟨⟨cause, hcause⟩, _⟩ => hfailure cause hcause
    obtain ⟨front, hfront, hlast⟩ := hlined.last
    have hsame : c.after.disk.contents c.writer.path =
        (c.writer.diskBetween c.entries c.world).contents c.writer.path :=
      (c.writer.account hne c.world h.sound h.retention h.free).apart _ hapart
    rw [hsame, DumpWriter.diskBetween, hlast, List.append_nil, hfront.beginsLine_iff]
    exact .inr hbegins

end Ready

end DumpCall

/-! ## Runs -/

namespace DumpWriter

/-- The dumps of several lists of entries, one after the other. -/
def calls (d : DumpWriter) : List (List Entry) → World → List DumpCall
  | [], _ => []
  | entries :: rest, w =>
    let (_, _, d', w') := d.dump entries w
    ⟨d, entries, w⟩ :: d'.calls rest w'

/-- The world after the dumps of several lists of entries. -/
def dumpAll (d : DumpWriter) : List (List Entry) → World → World
  | [], w => w
  | entries :: rest, w =>
    let (_, _, d', w') := d.dump entries w
    d'.dumpAll rest w'

/-- Dumps to a file by a writer that keeps its archives for ever, where nothing is in the
place of an archive. -/
structure Dumping (d : DumpWriter) (dumps : List (List Entry)) (w : World) : Prop where
  sound : w.disk.Sound
  retention : d.retention = none
  file : ¬w.disk.HasDevice d.path
  free : ∀ c ∈ d.calls dumps w, ∀ r ∈ c.writer.requests c.entries c.world, r.2.has r.1 = false

namespace Dumping

variable {d : DumpWriter} {entries : List Entry} {dumps : List (List Entry)} {w : World}

theorem head (h : d.Dumping (entries :: dumps) w) : DumpCall.Ready ⟨d, entries, w⟩ :=
  ⟨h.sound, h.retention, h.file, h.free _ List.mem_cons_self⟩

theorem tail (h : d.Dumping (entries :: dumps) w) :
    (d.dump entries w).2.2.1.Dumping dumps (d.dump entries w).2.2.2 := by
  have hcarries := h.head.carries
  refine ⟨hcarries.sound, (d.retention_dump entries w).trans h.retention, ?_,
    fun c hc => h.free c (List.mem_cons_of_mem _ hc)⟩
  rw [path_dump]
  exact hcarries.device h.file

/-- The archives of a run are apart from the dump file, and no other file loses bytes. -/
theorem carries (h : d.Dumping dumps w) :
    Carries d.path w.disk ((d.calls dumps w).flatMap DumpCall.archived) (d.dumpAll dumps w).disk := by
  induction dumps generalizing d w with
  | nil => exact .refl h.sound
  | cons entries dumps ih =>
    have hrest := ih h.tail
    rw [path_dump] at hrest
    exact h.head.carries.trans hrest

/-- Each entry that is counted as written is in the dump file or an archive in the end,
where its own dump has put it. -/
theorem line (h : d.Dumping dumps w) {c : DumpCall} (hc : c ∈ d.calls dumps w) {k : Nat}
    {e : Entry} (he : c.entries[k]? = some e) (hk : k < c.report.written) :
    ∃ f ∈ (d.calls dumps w).flatMap DumpCall.archived ++ [d.path], ∃ front,
      IsFront (c.world.disk.contents d.path) (c.entries.take k) front ∧
        front ++ Text.encode e.render <+: (d.dumpAll dumps w).disk.contents f := by
  induction dumps generalizing d w with
  | nil => cases hc
  | cons entries dumps ih =>
    have hpath := d.path_dump entries w
    rcases List.mem_cons.1 hc with rfl | hc
    · have hrest := h.tail.carries
      rw [hpath] at hrest
      obtain ⟨f, hf, front, hfront, hpre⟩ := h.head.line he hk
      obtain ⟨g, hg, hlater⟩ :=
        h.head.carries.exists_prefix hrest (h.head.carries.device h.file) hf
      exact ⟨g, hg, front, hfront, hpre.trans hlater⟩
    · obtain ⟨f, hf, front, hfront, hpre⟩ := ih h.tail hc
      rw [hpath] at hf hfront
      refine ⟨f, ?_, front, hfront, hpre⟩
      rw [calls, List.flatMap_cons, List.append_assoc]
      exact List.mem_append_right _ hf

/-- The dump file ends with a line before each dump, unless a write to it has failed. -/
theorem beginsLine (h : d.Dumping dumps w) (hapart : ¬w.disk.Meets d.path d.fallback)
    (hbegins : BeginsLine (w.disk.contents d.path))
    (hfailure : ∀ c ∈ d.calls dumps w, ∀ cause, c.failure ≠ some (.writeDump d.path cause)) :
    ∀ c ∈ d.calls dumps w, BeginsLine (c.world.disk.contents d.path) := by
  induction dumps generalizing d w with
  | nil => nofun
  | cons entries dumps ih =>
    have hafter := h.head.beginsLine hapart hbegins (hfailure _ List.mem_cons_self)
    have hpath := d.path_dump entries w
    obtain ⟨n, hn⟩ := d.writer_dump entries w
    have hrest := ih h.tail
    rw [hpath, show (d.dump entries w).2.2.1.fallback = d.fallback by rw [hn]] at hrest
    refine List.forall_mem_cons.2 ⟨hbegins, hrest (fun hmeets => hapart ?_) hafter
      fun c hc => hfailure c (List.mem_cons_of_mem _ hc)⟩
    exact h.head.carries.sameTree.meets.1 hmeets

/-- In dumps one after the other, whatever fails in them, each entry that is counted as
written stands as a whole in the dump file or an archive in the end. It begins a line
unless it is the first of its dump and the dump file ended amid a line before, which can
only be after a write to the dump file has failed. -/
theorem written_begin_lines (h : d.Dumping dumps w) :
    (∀ c ∈ d.calls dumps w, ∀ k e, c.entries[k]? = some e → k < c.report.written →
      ∃ f ∈ (d.calls dumps w).flatMap DumpCall.archived ++ [d.path], ∃ front,
        front ++ Text.encode e.render <+: (d.dumpAll dumps w).disk.contents f ∧
          (BeginsLine front ↔ k ≠ 0 ∨ BeginsLine (c.world.disk.contents d.path))) ∧
      (¬w.disk.Meets d.path d.fallback → BeginsLine (w.disk.contents d.path) →
        (∀ c ∈ d.calls dumps w, ∀ cause, c.failure ≠ some (.writeDump d.path cause)) →
        ∀ c ∈ d.calls dumps w, BeginsLine (c.world.disk.contents d.path)) := by
  refine ⟨fun c hc k e he hk => ?_, h.beginsLine⟩
  obtain ⟨f, hf, front, hfront, hpre⟩ := h.line hc he hk
  refine ⟨f, hf, front, hpre, ?_⟩
  rw [hfront.beginsLine_iff]
  obtain ⟨hlt, -⟩ := List.getElem?_eq_some_iff.1 he
  have hne : c.entries ≠ [] := List.ne_nil_of_length_pos (Nat.zero_lt_of_lt hlt)
  simp [hne]

/-- A world in which the first write fails after five bytes. -/
def tornOnce : World :=
  { World.calm ⟨[], []⟩ fun _ => 0 with
    outcomes := fun n => if n = 1 then .torn 5 else .regular }

/-- A line that is glued to a torn one: the first of two dumps fails amid a line, and the
entry that the second counts as written begins no line of the dump file or an archive. -/
theorem line_glued_to_torn_line :
    let d := DumpWriter.new ⟨"app.log"⟩ defaultDumpSize
    let second := Entry.tagged (.utc 0) .info "t" [.text "second"]
    let dumps := [[Entry.tagged (.utc 0) .info "t" [.text "first"]], [second]]
    d.Dumping dumps tornOnce ∧ BeginsLine (tornOnce.disk.contents d.path) ∧
      ((d.calls dumps tornOnce).map fun c => c.report.written) = [0, 1] ∧
      ∀ f ∈ (d.calls dumps tornOnce).flatMap DumpCall.archived ++ [d.path], ∀ front,
        BeginsLine front →
          ¬front ++ Text.encode second.render <+: (d.dumpAll dumps tornOnce).disk.contents f := by
  intro d second dumps
  have harchived : (d.calls dumps tornOnce).flatMap DumpCall.archived = [] := by decide +kernel
  have hlen : ((d.dumpAll dumps tornOnce).disk.contents d.path).length =
      5 + (Text.encode second.render).length := by decide +kernel
  -- what stands before the line is one of the beginnings of the torn part
  have hfronts : ∀ n < 6, BeginsLine (((d.dumpAll dumps tornOnce).disk.contents d.path).take n) →
      ¬((d.dumpAll dumps tornOnce).disk.contents d.path).take n ++ Text.encode second.render <+:
        (d.dumpAll dumps tornOnce).disk.contents d.path := by decide +kernel
  refine ⟨⟨Disk.sound_empty, rfl, Disk.not_hasDevice_empty _, by decide +kernel⟩, by decide +kernel,
    by decide +kernel, fun f hf front hbegins hpre => ?_⟩
  rw [harchived, List.nil_append, List.mem_singleton] at hf
  subst hf
  have hfront := List.prefix_iff_eq_take.1 ((List.prefix_append _ _).trans hpre)
  have hle := hpre.length_le
  rw [List.length_append, hlen] at hle
  rw [hfront] at hbegins hpre
  exact hfronts _ (by omega) hbegins hpre

/-- Two dumps in which nothing fails. -/
theorem written_begin_lines_of_calm :
    let d := DumpWriter.new ⟨"app.log"⟩ defaultDumpSize
    let dumps := [[Entry.tagged (.utc 0) .info "t" [.text "first"]],
      [Entry.tagged (.utc 0) .info "t" [.text "second"]]]
    let w := World.calm ⟨[], []⟩ fun _ => 0
    d.Dumping dumps w ∧ ((d.calls dumps w).map fun c => c.report.written) = [1, 1] ∧
      ∀ c ∈ d.calls dumps w, ∀ k e, c.entries[k]? = some e → k < c.report.written →
        ∃ f ∈ (d.calls dumps w).flatMap DumpCall.archived ++ [d.path], ∃ front,
          front ++ Text.encode e.render <+: (d.dumpAll dumps w).disk.contents f ∧
            BeginsLine front := by
  intro d dumps w
  have h : d.Dumping dumps w :=
    ⟨Disk.sound_empty, rfl, Disk.not_hasDevice_empty _, by decide +kernel⟩
  have hfailure : ∀ c ∈ d.calls dumps w, c.failure = none := by decide +kernel
  obtain ⟨hlines, hbegins⟩ := h.written_begin_lines
  refine ⟨h, by decide +kernel, fun c hc k e he hk => ?_⟩
  obtain ⟨f, hf, front, hpre, hiff⟩ := hlines c hc k e he hk
  refine ⟨f, hf, front, hpre, hiff.2 (.inr ?_)⟩
  refine hbegins (Disk.not_meets (by decide +kernel)) (by decide +kernel) (fun c hc cause => ?_) c hc
  rw [hfailure c hc]
  nofun

end Dumping

end DumpWriter

end LogPipeline
