import LogPipeline.Proofs.Archive.Order
import LogPipeline.Proofs.Dump.Lines
import LogPipeline.Proofs.Retention
import Mathlib.Data.List.Forall2

/-!
# Reading archives in the order of their names

The file of a path is cut into archives, one after the other. Archives with other names are
other files (`Disk.fileName?_of_fileTarget`), so that each keeps what it was made with until
it is removed, if no fallback file is in its place (`Cuts`). Archives are made in the order of
their names, so that reading them in that order and then the dump file gives what dumps have
added, in order (`Scribe.archives_read_in_order`).
-/

namespace LogPipeline

open Disk (Alters Displaces Grows SameTree)

/-! ## Files and their names -/

namespace Disk

variable {d : Disk} {p q : Path} {t : Place}

/-- A path that ends in a name ends in its last piece. -/
theorem follow_name {pieces : List (List Char)} {place : Place} {ending : PathEnd}
    (hending : ending ≠ .name) (h : d.follow place ending pieces = .ok ⟨t, .name⟩) :
    ∃ front last dir, pieces = front ++ [last] ∧ Path.isVoid last = false ∧
      last ≠ ['.', '.'] ∧ t = dir ++ [String.ofList last] := by
  induction pieces generalizing place ending with
  | nil =>
    rw [follow, Except.ok.injEq, Target.mk.injEq] at h
    exact (hending h.2).elim
  | cons piece rest ih =>
    have hcons : (∃ front last dir, rest = front ++ [last] ∧ Path.isVoid last = false ∧
        last ≠ ['.', '.'] ∧ t = dir ++ [String.ofList last]) →
        ∃ front last dir, piece :: rest = front ++ [last] ∧ Path.isVoid last = false ∧
          last ≠ ['.', '.'] ∧ t = dir ++ [String.ofList last] := by
      rintro ⟨front, last, dir, rfl, hlast⟩
      exact ⟨piece :: front, last, dir, rfl, hlast⟩
    rw [follow] at h
    split at h
    · exact hcons (ih hending h)
    · next hempty =>
      split at h
      · exact hcons (ih (by simp) h)
      · next hdot =>
        split at h
        · exact hcons (ih (by simp) h)
        · next hdots =>
          simp only at h
          split at h
          · cases h
          · split at h
            · next hrest =>
              cases h
              exact ⟨[], piece, place, by rw [hrest]; rfl,
                by simp [Path.isVoid, hempty, hdot], hdots, rfl⟩
            · split at h
              · cases h
              · exact hcons (ih (by simp) h)
              · cases h

/-- A file stands under the file name of its path. -/
theorem fileName?_of_fileTarget (h : d.fileTarget p = .ok t) :
    ∃ dir name, p.fileName? = some name ∧ t = dir ++ [String.ofList name] := by
  have hresolve := (fileTarget_eq_ok_iff.1 h).1
  unfold resolve at hresolve
  split at hresolve
  · cases hresolve
  split at hresolve
  · cases hresolve
  split at hresolve
  · cases hresolve
  obtain ⟨front, last, dir, hpieces, hvoid, hdots, rfl⟩ := follow_name (by simp) hresolve
  have hne : last ≠ [] ∧ last ≠ ['.'] := by simpa [Path.isVoid] using hvoid
  refine ⟨dir, last, ?_, rfl⟩
  have hlast : p.splitLast?.map Prod.snd = some last := by
    cases front with
    | nil =>
      rw [Path.map_snd_splitLast? hpieces]
      simp [hne.1]
    | cons first front =>
      rw [Path.map_snd_splitLast? hpieces]
      simp [hvoid]
  rw [Path.fileName?_eq, hlast]
  simp [hne.2, hdots]

/-- Paths that lead to the same file have the same file name. -/
theorem Meets.fileName?_eq (h : d.Meets p q) : p.fileName? = q.fileName? := by
  obtain ⟨t, hp, hq⟩ := h
  obtain ⟨dir, name, hname, rfl⟩ := fileName?_of_fileTarget hp
  obtain ⟨dir', name', hname', heq⟩ := fileName?_of_fileTarget hq
  have hsame := (List.append_inj' heq rfl).2
  rw [hname, hname', String.ofList_injective (List.cons.inj hsame).1]

/-- A path of a dump file leads to a file, or to nothing. -/
structure ForFile (d : Disk) (p : Path) : Prop where
  device : ¬d.HasDevice p
  directory : ∀ t, d.resolve p = .ok t → d.node? t.place ≠ some .directory

namespace ForFile

theorem fileTarget (h : d.ForFile p) (hs : d.Sound) {u : Target} (hu : d.resolve p = .ok u) :
    d.fileTarget p = .ok u.place := by
  have hdir := h.directory u hu
  rcases hs.resolve_cases hu with ⟨-, hdir'⟩ | ⟨hname, -⟩
  · exact (hdir hdir').elim
  · obtain ⟨place, ending⟩ := u
    obtain rfl : ending = .name := hname
    exact fileTarget_eq_ok_iff.2 ⟨hu, hdir⟩

theorem of_sameTree {d' : Disk} (h : d.ForFile p) (ht : SameTree d d')
    (hdev : ¬d'.HasDevice p) : d'.ForFile p :=
  ⟨hdev, fun u hu hdir => h.directory u (ht.symm.resolve hu) ((ht.directory _).1 hdir)⟩

end ForFile

end Disk

/-! ## A file that is cut into archives -/

/-- One disk is another after bytes have been added to the file of a path, which has
meanwhile been cut into archives, each with the bytes it was made with. Archives may be
removed and fallback files written to; nothing else happens to the disk. -/
structure Cuts (path : Path) (fallbacks : List Path) (disk : Disk)
    (archived : List (Path × Bytes)) (bytes : Bytes) (disk' : Disk) : Prop where
  sound : disk'.Sound
  sameTree : SameTree disk disk'
  forFile : disk'.ForFile path
  names : ∀ x ∈ archived, x.1.fileName? ≠ path.fileName?
  whole : (archived.map Prod.snd).flatten ++ disk'.contents path = disk.contents path ++ bytes
  holds : ∀ x ∈ archived, ∃ t, disk.fileTarget x.1 = .ok t ∧
    ((∀ f ∈ fallbacks, disk.fileTarget f ≠ .ok t) → disk'.node? t = none ∨ disk'.bytesAt t = x.2)
  others : ∀ t, disk.fileTarget path ≠ .ok t → (∀ f ∈ fallbacks, disk.fileTarget f ≠ .ok t) →
    (∀ x ∈ archived, disk.fileTarget x.1 ≠ .ok t) →
      disk'.node? t = disk.node? t ∨ disk'.node? t = none

namespace Cuts

variable {path : Path} {fallbacks : List Path} {disk disk' disk'' : Disk}
  {as bs : List (Path × Bytes)} {bytes bytes' : Bytes}

theorem refl (hs : disk.Sound) (hf : disk.ForFile path) : Cuts path fallbacks disk [] [] disk where
  sound := hs
  sameTree := .refl disk
  forFile := hf
  names := nofun
  whole := by simp
  holds := nofun
  others _ _ _ _ := .inl rfl

/-- The file may grow. -/
theorem of_streams (hf : disk.ForFile path) (h : Streams path disk [] bytes disk') :
    Cuts path fallbacks disk [] bytes disk' where
  sound := h.sound
  sameTree := h.sameTree
  forFile := hf.of_sameTree h.sameTree (h.kept hf.device).1
  names := nofun
  whole := by simpa [Disk.reading] using (h.kept hf.device).2
  holds := nofun
  others t ht _ _ := .inl (h.others t ht nofun)

/-- Files other than that of the path may be removed, and fallback files may change. -/
theorem of_others (hf : disk.ForFile path) (hs : disk'.Sound) (hd : SameTree disk disk')
    (hpath : ∀ t, disk.fileTarget path = .ok t → disk'.node? t = disk.node? t)
    (h : ∀ t, (∀ f ∈ fallbacks, disk.fileTarget f ≠ .ok t) →
      disk'.node? t = disk.node? t ∨ disk'.node? t = none) :
    Cuts path fallbacks disk [] [] disk' where
  sound := hs
  sameTree := hd
  forFile := by
    refine hf.of_sameTree hd ?_
    rintro ⟨t, takes, ht, hnode⟩
    have ht' := hd.symm.fileTarget ht
    exact hf.device ⟨t, takes, ht', by rwa [← hpath t ht']⟩
  names := nofun
  whole := by simpa using hd.contents_eq hpath
  holds := nofun
  others t _ hfall _ := h t hfall

/-- The file may be renamed, also to where another file is. -/
theorem of_rename (hs : disk.Sound) (hf : disk.ForFile path) {a : Path}
    (hname : a.fileName? ≠ path.fileName?) (h : disk.rename path a = .ok disk') :
    Cuts path fallbacks disk [(a, disk.contents path)] [] disk' := by
  obtain ⟨s, t, hsource, htarget, -, hfile, hmoved⟩ := hs.rename_cases h
  have hsdir := hf.directory s hsource
  have hs' := hf.fileTarget hs hsource
  obtain ⟨place, ending⟩ := t
  obtain ⟨rfl, htdir⟩ := hfile hsdir
  have ht' := Disk.fileTarget_eq_ok_iff.2 ⟨htarget, htdir⟩
  have hapart : s.place ≠ place := fun heq =>
    hname (Disk.Meets.fileName?_eq ⟨place, ht', heq ▸ hs'⟩)
  rcases hmoved with ⟨heq, -⟩ | hmoved
  · exact (hapart heq).elim
  have htree := hmoved.sameTree_of_file hs hsdir
  obtain ⟨-, hnodes⟩ := hmoved.of_file hs hsdir
  have hgone : disk'.node? s.place = none := by rw [hnodes, if_neg hapart, if_pos rfl]
  refine ⟨hmoved.sound hs, htree, hf.of_sameTree htree ?_, List.forall_mem_singleton.2 hname, ?_,
    ?_, fun q hq _ hqa => .inl ?_⟩
  · exact Disk.not_hasDevice (htree.fileTarget hs') (by simp [hgone])
  · simp [Disk.contents_of_fileTarget (htree.fileTarget hs'), Disk.bytesAt_of_none hgone]
  · refine List.forall_mem_singleton.2 ⟨place, ht', fun _ => .inr ?_⟩
    rw [Disk.contents_of_fileTarget hs']
    exact Disk.bytesAt_congr hmoved.node?_target
  · have hqt : q ≠ place := fun heq => hqa _ List.mem_cons_self (heq ▸ ht')
    have hqs : q ≠ s.place := fun heq => hq (heq ▸ hs')
    rw [hnodes, if_neg hqt, if_neg hqs]

/-- Archives that have other names than later ones stay as they are or are removed. -/
theorem trans (h : Cuts path fallbacks disk as bytes disk')
    (h' : Cuts path fallbacks disk' bs bytes' disk'')
    (hnames : ∀ x ∈ as, ∀ y ∈ bs, x.1.fileName? ≠ y.1.fileName?) :
    Cuts path fallbacks disk (as ++ bs) (bytes ++ bytes') disk'' where
  sound := h'.sound
  sameTree := h.sameTree.trans h'.sameTree
  forFile := h'.forFile
  names := List.forall_mem_append.2 ⟨h.names, h'.names⟩
  whole := by
    rw [List.map_append, List.flatten_append, List.append_assoc, h'.whole, ← List.append_assoc,
      h.whole, List.append_assoc]
  holds := by
    refine List.forall_mem_append.2 ⟨fun x hx => ?_, fun y hy => ?_⟩
    · obtain ⟨t, ht, hnode⟩ := h.holds x hx
      refine ⟨t, ht, fun hfall => ?_⟩
      have ht' := h.sameTree.fileTarget ht
      have hstays := h'.others t
        (fun hp => h.names x hx (Disk.Meets.fileName?_eq ⟨t, ht', hp⟩))
        (fun f hf hft => hfall f hf (h.sameTree.symm.fileTarget hft))
        (fun y hy hyt => hnames x hx y hy (Disk.Meets.fileName?_eq ⟨t, ht', hyt⟩))
      rcases hstays with hsame | hgone
      · rw [hsame, Disk.bytesAt_congr hsame]
        exact hnode hfall
      · exact .inl hgone
    · obtain ⟨t, ht, hnode⟩ := h'.holds y hy
      exact ⟨t, h.sameTree.symm.fileTarget ht, fun hfall =>
        hnode fun f hf hft => hfall f hf (h.sameTree.symm.fileTarget hft)⟩
  others t htpath hfall hmade := by
    have hstep := h.others t htpath hfall fun x hx => hmade x (List.mem_append_left _ hx)
    have hstep' := h'.others t (fun hp => htpath (h.sameTree.symm.fileTarget hp))
      (fun f hf hft => hfall f hf (h.sameTree.symm.fileTarget hft))
      (fun y hy hyt => hmade y (List.mem_append_right _ hy) (h.sameTree.symm.fileTarget hyt))
    rcases hstep' with hsame | hgone
    · rwa [hsame]
    · exact .inr hgone

theorem trans_nil (h : Cuts path fallbacks disk as bytes disk')
    (h' : Cuts path fallbacks disk' [] bytes' disk'') :
    Cuts path fallbacks disk as (bytes ++ bytes') disk'' := by
  have hboth := h.trans h' fun _ _ => nofun
  rwa [List.append_nil] at hboth

end Cuts

/-! ## What one call does -/

theorem Attempt.made_append (as bs : List Attempt) : Attempt.made (as ++ bs) = made as ++ made bs :=
  List.filter_append as bs

namespace Retention

/-- Removing what has expired leaves everything that is not in the series. -/
theorem removeExpired_spares (s : Series) (limit : Nanos) (places : List Place) {w : World}
    (hs : w.disk.Sound) :
    (removeExpired s limit places w).2.disk.Sound ∧
      SameTree w.disk (removeExpired s limit places w).2.disk ∧
      ∀ q, (removeExpired s limit places w).2.disk.node? q = w.disk.node? q ∨
        (removeExpired s limit places w).2.disk.node? q = none ∧
          s.holds (q.getLast?.getD "").toList = true := by
  induction places generalizing w with
  | nil => exact ⟨hs, .refl _, fun _ => .inl rfl⟩
  | cons place rest ih =>
    rw [removeExpired]
    by_cases hexpired : isExpired s limit w.disk place
    · obtain ⟨hheld, contents, modified, hfile, -⟩ := isExpired_iff.1 hexpired
      rw [if_pos hexpired]
      rcases removeFile_cases hfile with ⟨-, hremove⟩ | ⟨-, hremove⟩
      · have hnode := hs.node?_erase hfile
        have htree : SameTree w.disk (w.disk.erase place) := by
          refine ⟨rfl, fun q => ?_⟩
          rw [hnode]
          split
          · next hq => simp [hq, hfile]
          · rfl
        obtain ⟨hsound, hsame, hspared⟩ :=
          ih (w := { w.proceed with disk := w.disk.erase place }) (hs.erase hfile)
        rw [hremove]
        refine ⟨hsound, htree.trans hsame, fun q => ?_⟩
        rcases hspared q with hkept | hgone
        · by_cases hq : q = place
          · exact .inr ⟨hkept.trans (by rw [hnode, if_pos hq]), hq ▸ hheld⟩
          · exact .inl (hkept.trans (by rw [hnode, if_neg hq]))
        · exact .inr hgone
      · rw [hremove]
        exact ih (w := w.proceed) hs
    · rw [if_neg hexpired]
      exact ih hs

/-- Cleaning leaves everything that is not in the series. -/
theorem clean_spares (dump : Path) (days : UInt64) {w : World} (hs : w.disk.Sound) :
    (clean dump days w).2.disk.Sound ∧ SameTree w.disk (clean dump days w).2.disk ∧
      ∀ q, (clean dump days w).2.disk.node? q = w.disk.node? q ∨
        (clean dump days w).2.disk.node? q = none ∧
          (Series.ofPath dump).holds (q.getLast?.getD "").toList = true := by
  have hlist : ∀ r w', w.tick.list dump.directory = (r, w') → w'.disk = w.disk := by
    intro r w' h
    unfold World.list at h
    split at h
    · cases h
      rfl
    · split at h <;> cases h <;> rfl
  unfold clean
  split
  · exact ⟨hs, .refl _, fun _ => .inl rfl⟩
  · simp only
    split
    · next h =>
      rw [hlist _ _ h]
      exact ⟨hs, .refl _, fun _ => .inl rfl⟩
    · next places w' h =>
      have hdisk := hlist _ _ h
      rw [← hdisk] at hs ⊢
      exact removeExpired_spares _ _ places hs

end Retention

namespace DumpWriter

variable {d : DumpWriter} {w : World} (fallbacks : List Path)

/-- An attempt cuts the file off, or leaves it. -/
theorem rotate_cuts (hs : w.disk.Sound) (hf : w.disk.ForFile d.path) :
    ∃ archived, archived.map Prod.fst = (Attempt.made [(d, w)]).map Attempt.archive ∧
      Cuts d.path fallbacks w.disk archived [] (d.rotate w).2.2.disk := by
  rcases (d.rotate_cases w).2 with ⟨hok, hrename⟩ | ⟨e, herror, hdisk⟩
  · refine ⟨[(d.nextArchive w, w.disk.contents d.path)], ?_, ?_⟩
    · have hmade : Attempt.made [(d, w)] = [(d, w)] :=
        List.filter_cons_of_pos (by simp [Attempt.isMade, hok, Except.isOk, Except.toBool])
      rw [hmade]
      rfl
    · exact .of_rename hs hf (Series.fileName?_archive_ne _ _ _) hrename
  · refine ⟨[], ?_, ?_⟩
    · have hmade : Attempt.made [(d, w)] = [] :=
        List.filter_cons_of_neg (by simp [Attempt.isMade, herror, Except.isOk, Except.toBool])
      rw [hmade]
      rfl
    · rw [hdisk]
      exact .refl hs hf

/-- The dump file itself does not expire. -/
theorem retain_cuts (d : DumpWriter) (hs : w.disk.Sound) (hf : w.disk.ForFile d.path) :
    Cuts d.path fallbacks w.disk [] [] (d.retain w).2.disk := by
  cases hretention : d.retention with
  | none =>
    simp only [retain, hretention]
    exact .refl hs hf
  | some days =>
    have hdisk : (d.retain w).2.disk = (Retention.clean d.path days w).2.disk := by
      simp only [retain, hretention]
      split <;> next h => rw [h]
    obtain ⟨hsound, hsame, hspared⟩ := Retention.clean_spares d.path days hs
    rw [hdisk]
    refine .of_others hf hsound hsame (fun t ht => ?_) fun t _ => (hspared t).imp_right And.left
    refine (hspared t).resolve_right fun hgone => ?_
    obtain ⟨dir, name, hname, rfl⟩ := Disk.fileName?_of_fileTarget ht
    have hheld := hgone.2
    simp [Series.not_holds_fileName hname] at hheld

/-- A full file is cut off, or left. -/
theorem archiveFull_cuts (hs : w.disk.Sound) (hf : w.disk.ForFile d.path) :
    ∃ archived, archived.map Prod.fst = (Attempt.made [(d, w)]).map Attempt.archive ∧
      Cuts d.path fallbacks w.disk archived [] (d.archiveFull w).2.2.2.disk := by
  obtain ⟨archived, hmade, hcuts⟩ := rotate_cuts fallbacks hs hf
  have hwriter := (d.rotate_cases w).1
  refine ⟨archived, hmade, ?_⟩
  unfold archiveFull
  split
  · next archive d' w' hrotate =>
    rw [hrotate] at hcuts hwriter
    obtain rfl : d' = _ := hwriter
    exact hcuts.trans_nil (retain_cuts fallbacks _ hcuts.sound hcuts.forFile)
  · next hrotate =>
    rw [hrotate] at hcuts
    exact hcuts

theorem writeFile_cuts (entries : List Entry) (hs : w.disk.Sound) (hf : w.disk.ForFile d.path) :
    ∃ torn, Cuts d.path fallbacks w.disk []
        (renderAll (entries.take (d.writeFile entries w).1.written) ++ torn)
        (d.writeFile entries w).2.disk ∧
      Torn d.path (entries.drop (d.writeFile entries w).1.written)
        (d.writeFile entries w).1.ended.failure? torn := by
  obtain ⟨torn, hstreams, htorn⟩ := d.writeFile_streams entries w hs
  exact ⟨torn, .of_streams hf hstreams, htorn⟩

/-- The lines of the entries that a full file took are added, and the file is cut off, or
left. -/
theorem full_cuts {entries : List Entry} {w' : World} {written : Nat} {notices : List Notice}
    (hs : w.disk.Sound) (hf : w.disk.ForFile d.path)
    (hfile : d.writeFile entries w = (⟨.full, written, notices⟩, w')) :
    ∃ archived, archived.map Prod.fst = (Attempt.made [(d, w')]).map Attempt.archive ∧
      Cuts d.path fallbacks w.disk archived (renderAll (entries.take written))
        (d.archiveFull w').2.2.2.disk := by
  obtain ⟨torn, hcuts, htorn⟩ := writeFile_cuts fallbacks entries hs hf
  rw [hfile] at hcuts htorn
  obtain rfl : torn = [] := by
    rcases htorn with hnil | ⟨⟨cause, hfailed⟩, -⟩
    · exact hnil
    · cases hfailed
  obtain ⟨archived, hmade, hfull⟩ := archiveFull_cuts fallbacks hcuts.sound hcuts.forFile
  refine ⟨archived, hmade, ?_⟩
  have hboth := hcuts.trans hfull nofun
  rwa [List.nil_append, List.append_nil, List.append_nil] at hboth

end DumpWriter

/-- Archives with file names of their own have others than the ones after them. -/
theorem names_apart {as bs : List (Path × Bytes)}
    (h : (((as ++ bs).map Prod.fst).map Path.fileName?).Nodup) :
    ∀ x ∈ as, ∀ y ∈ bs, x.1.fileName? ≠ y.1.fileName? := by
  rw [List.map_append, List.map_append, List.nodup_append] at h
  exact fun x hx y hy => h.2.2 _ (List.mem_map_of_mem (List.mem_map_of_mem hx)) _
    (List.mem_map_of_mem (List.mem_map_of_mem hy))

namespace DumpWriter

/-- Archives with names of their own keep what they are made with. The lines of the written
entries are added, and perhaps a part of the batch that failed. -/
theorem writeEntries_cuts (fallbacks : List Path) (d : DumpWriter) (entries : List Entry)
    (w : World) (hs : w.disk.Sound) (hf : w.disk.ForFile d.path)
    (hnames : (((Attempt.made (d.rotations entries w)).map Attempt.archive).map Path.fileName?).Nodup) :
    ∃ archived torn,
      archived.map Prod.fst = (Attempt.made (d.rotations entries w)).map Attempt.archive ∧
        Cuts d.path fallbacks w.disk archived
          (renderAll (entries.take (d.writeEntries entries w).1.written) ++ torn)
          (d.writeEntries entries w).2.2.disk ∧
        Torn d.path (entries.drop (d.writeEntries entries w).1.written)
          (d.writeEntries entries w).1.failure torn := by
  fun_induction DumpWriter.writeEntries d entries w with
  | case1 d entries w e written notices w' hfile =>
    obtain ⟨torn, hcuts, htorn⟩ := writeFile_cuts fallbacks entries hs hf
    rw [hfile] at hcuts htorn
    rw [rotations, hfile]
    exact ⟨[], torn, rfl, hcuts, htorn⟩
  | case2 d entries w written notices w' hfile =>
    obtain ⟨torn, hcuts, htorn⟩ := writeFile_cuts fallbacks entries hs hf
    rw [hfile] at hcuts htorn
    rw [rotations, hfile]
    exact ⟨[], torn, rfl, hcuts, htorn⟩
  | case3 d entries w written notices w' hfile made more d' w'' harchive rest hrest run d'' w''' hrun ih =>
    have hmore : entries.drop written ≠ [] ∧ (entries.drop written).length < entries.length := hrest
    have hwriter := d.writer_archiveFull w'
    obtain ⟨archived, hone, hfull⟩ := full_cuts fallbacks hs hf hfile
    rw [harchive] at hwriter hfull
    obtain rfl : d' = _ := hwriter
    have hsplit : d.rotations entries w =
        [(d, w')] ++ DumpWriter.rotations { d with sequence := d.nextSequence } rest w'' := by
      rw [rotations, hfile]
      simp only [harchive, dif_pos hmore]
      rfl
    rw [hsplit, Attempt.made_append, List.map_append, List.map_append] at hnames
    obtain ⟨archived', torn, hmade, hcuts, htorn⟩ :=
      ih hfull.sound hfull.forFile (List.nodup_append.1 hnames).2.1
    rw [hrun] at hcuts htorn
    rw [← hone, ← hmade, ← List.map_append, ← List.map_append] at hnames
    refine ⟨archived ++ archived', torn, ?_, ?_, ?_⟩
    · rw [hsplit, Attempt.made_append, List.map_append, List.map_append, hone, hmade]
    · have hboth := hfull.trans hcuts (names_apart hnames)
      rwa [← List.append_assoc, ← renderAll_append, ← List.take_add] at hboth
    · rwa [← List.drop_drop]
  | case4 d entries w written notices w' hfile made more d' w'' harchive rest hrest =>
    have hdone : ¬(entries.drop written ≠ [] ∧ (entries.drop written).length < entries.length) := hrest
    obtain ⟨archived, hone, hfull⟩ := full_cuts fallbacks hs hf hfile
    rw [harchive] at hfull
    rw [rotations, hfile]
    simp only [harchive, dif_neg hdone]
    exact ⟨archived, [], hone, by rwa [List.append_nil], .inl rfl⟩

end DumpWriter

section Fallback

variable {path fallback : Path} {fallbacks : List Path} {w : World}

/-- Only a fallback file that is the dump file itself adds to it. -/
theorem writeFallback_cuts (entries : List Entry) (hfall : fallback ∈ fallbacks)
    (hs : w.disk.Sound) (hf : w.disk.ForFile path) :
    ∃ spilled, spilled <+: renderAll entries ∧
      (spilled = [] ∨ w.disk.Meets path fallback) ∧
      Cuts path fallbacks w.disk [] spilled (writeFallback fallback entries w).2.disk := by
  by_cases hmeets : w.disk.Meets path fallback
  · obtain ⟨place, hpath, hplace⟩ := hmeets
    have hdev : ¬w.disk.HasDevice fallback := by
      rintro ⟨q, takes, hq, hnode⟩
      rw [hplace] at hq
      cases hq
      exact hf.device ⟨place, takes, hpath, hnode⟩
    rcases writeFallback_grows fallback entries hs hdev with
      hsame | ⟨q, bytes, hq, hpre, hgrows⟩
    · rw [hsame]
      exact ⟨[], List.nil_prefix, .inl rfl, .refl hs hf⟩
    · rw [hplace] at hq
      cases hq
      exact ⟨bytes, hpre, .inr ⟨place, hpath, hplace⟩,
        .of_streams hf (.of_grows hs hpath hgrows)⟩
  · refine ⟨[], List.nil_prefix, .inl rfl, ?_⟩
    rcases writeFallback_alters fallback entries hs with hsame | ⟨place, hplace, halters⟩
    · rw [hsame]
      exact .refl hs hf
    · refine .of_others hf (halters.sound hs (hs.fileTarget_parent hplace)) halters.sameTree
        (fun t ht => halters.others t ?_) fun t ht => .inl (halters.others t ?_)
      · rintro rfl
        exact hmeets ⟨t, ht, hplace⟩
      · rintro rfl
        exact ht fallback hfall hplace

end Fallback

/-! ## Dumps -/

namespace DumpCall

/-- What a dump adds to the dump file and its archives: the lines of the entries that it
reports as written, and, where it has failed, perhaps a part of the next batch, and what has
been spilled if the fallback file is the dump file itself. -/
def Adds (c : DumpCall) (bytes : Bytes) : Prop :=
  ∃ torn spilled, bytes = renderAll (c.entries.take c.report.written) ++ torn ++ spilled ∧
    Torn c.writer.path (c.entries.drop c.report.written) c.failure torn ∧
    spilled <+: renderAll (c.entries.drop c.report.written) ∧
    (spilled = [] ∨ c.world.disk.Meets c.writer.path c.writer.fallback)

/-- A dump that has written all its entries adds their lines and nothing else. -/
theorem Adds.eq_renderAll {c : DumpCall} {bytes : Bytes} (h : c.Adds bytes)
    (hall : c.report.written = c.entries.length) : bytes = renderAll c.entries := by
  obtain ⟨torn, spilled, rfl, htorn, hspilled, -⟩ := h
  rw [hall, List.drop_length] at htorn hspilled
  obtain rfl : torn = [] := by
    rcases htorn with hnil | ⟨-, hpre⟩
    · exact hnil
    · exact List.prefix_nil.1 hpre
  obtain rfl : spilled = [] := List.prefix_nil.1 hspilled
  rw [hall, List.take_length, List.append_nil, List.append_nil]

/-- A dump, whatever fails in it. -/
theorem cuts (c : DumpCall) {fallbacks : List Path}
    (hfall : c.report.written ≠ c.entries.length → c.writer.fallback ∈ fallbacks)
    (hs : c.world.disk.Sound) (hf : c.world.disk.ForFile c.writer.path)
    (hnames : (((Attempt.made (c.writer.rotations c.entries c.world)).map Attempt.archive).map
      Path.fileName?).Nodup) :
    ∃ archived bytes,
      archived.map Prod.fst =
          (Attempt.made (c.writer.rotations c.entries c.world)).map Attempt.archive ∧
        c.Adds bytes ∧
        Cuts c.writer.path fallbacks c.world.disk archived bytes c.after.disk := by
  obtain ⟨d, entries, w⟩ := c
  simp only at hs hf hnames
  by_cases hne : entries = []
  · subst hne
    refine ⟨[], [], by rw [DumpWriter.rotations_nil]; rfl, ?_, .refl hs hf⟩
    exact ⟨[], [], rfl, .inl rfl, List.nil_prefix, .inl rfl⟩
  obtain ⟨archived, torn, hmade, hcuts, htorn⟩ :=
    DumpWriter.writeEntries_cuts fallbacks d entries w hs hf hnames
  obtain ⟨hwritten, -, -, hfiles⟩ := d.dump_cases hne w
  have hreport : (report ⟨d, entries, w⟩).written = (d.writeEntries entries w).1.written := hwritten
  rw [← hreport] at hcuts htorn
  by_cases hall : (report ⟨d, entries, w⟩).written = entries.length
  · refine ⟨archived, _, hmade, ⟨torn, [], rfl, htorn, List.nil_prefix, .inl rfl⟩, ?_⟩
    rw [List.append_nil, disk_after_of_written hall hne]
    exact hcuts
  rcases hfiles with ⟨-, hdisk⟩ | ⟨_, rfl, hdisk, -⟩
  · refine ⟨archived, _, hmade, ⟨torn, [], rfl, htorn, List.nil_prefix, .inl rfl⟩, ?_⟩
    rw [List.append_nil, after, hdisk]
    exact hcuts
  · obtain ⟨spilled, hpre, hmeets, hspill⟩ := writeFallback_cuts
      (entries.drop (d.writeEntries entries w).1.written) (hfall hall) hcuts.sound hcuts.forFile
    rw [← hreport] at hpre
    refine ⟨archived, _, hmade, ⟨torn, spilled, rfl, htorn, hpre, ?_⟩, ?_⟩
    · exact hmeets.imp_right hcuts.sameTree.meets.1
    · rw [after, hdisk]
      exact hcuts.trans_nil hspill

end DumpCall

/-! ## Runs -/

theorem DumpWriter.path_rotations (d : DumpWriter) (entries : List Entry) (w : World) :
    ∀ a ∈ d.rotations entries w, a.1.path = d.path := by
  fun_induction DumpWriter.rotations d entries w with
  | case1 d entries w written notices w' hfile made more d' w'' harchive rest ih =>
    have hwriter := d.writer_archiveFull w'
    rw [harchive] at hwriter
    obtain rfl : d' = _ := hwriter
    refine List.forall_mem_cons.2 ⟨rfl, fun a ha => ?_⟩
    split at ha
    · next hrest => exact ih hrest a ha
    · cases ha
  | case2 => exact nofun

/-- A move that leaves the target where it is, and is one of the writer's own. -/
def ScribeMove.StaysAt (path : Path) : ScribeMove → Prop
  | .setTarget p _ => p = path
  | .outside _ => False
  | _ => True

namespace Scribe

/-- The dumps in a move. -/
def dumpsIn (s : Scribe) : ScribeMove → List DumpCall
  | .dump entries => [⟨s.writer, entries, s.world⟩]
  | _ => []

/-- The dumps in a run, in order. -/
def dumps (s : Scribe) : List ScribeMove → List DumpCall
  | [] => []
  | m :: ms => s.dumpsIn m ++ (s.next m).dumps ms

/-- The fallback files of the dumps in a run that have not written all their entries. -/
def fallbacks (s : Scribe) (ms : List ScribeMove) : List Path :=
  ((s.dumps ms).filter fun c => c.report.written ≠ c.entries.length).map (·.writer.fallback)

variable {path : Path} {fallbacks : List Path}

theorem path_next {s : Scribe} {m : ScribeMove} (hm : m.StaysAt path)
    (hs : s.writer.path = path) : (s.next m).writer.path = path := by
  cases m with
  | dump entries => exact (s.writer.path_dump entries s.world).trans hs
  | rotate =>
    have hwriter := (s.writer.rotate_cases s.world).1
    simp only [next]
    rw [hwriter]
    exact hs
  | setTarget p cap => exact hm
  | setFallback p => exact hs
  | setRetention days => exact hs
  | outside w => exact hm.elim

theorem cuts_next {s : Scribe} {m : ScribeMove} (hm : m.StaysAt path)
    (hpath : s.writer.path = path) (hs : s.world.disk.Sound) (hf : s.world.disk.ForFile path)
    (hnames : (((Attempt.made (s.attemptsIn m)).map Attempt.archive).map Path.fileName?).Nodup)
    (hfall : ∀ c ∈ s.dumpsIn m, c.report.written ≠ c.entries.length →
      c.writer.fallback ∈ fallbacks) :
    ∃ archived parts, archived.map Prod.fst = (Attempt.made (s.attemptsIn m)).map Attempt.archive ∧
      List.Forall₂ DumpCall.Adds (s.dumpsIn m) parts ∧
      Cuts path fallbacks s.world.disk archived parts.flatten (s.next m).world.disk := by
  subst hpath
  have hstill : (s.next m).world = s.world → s.attemptsIn m = [] → s.dumpsIn m = [] →
      ∃ archived parts, archived.map Prod.fst = (Attempt.made (s.attemptsIn m)).map Attempt.archive ∧
        List.Forall₂ DumpCall.Adds (s.dumpsIn m) parts ∧
        Cuts s.writer.path fallbacks s.world.disk archived parts.flatten
          (s.next m).world.disk := fun hworld hattempts hdumps => by
    rw [hworld, hattempts, hdumps]
    exact ⟨[], [], rfl, .nil, .refl hs hf⟩
  cases m with
  | dump entries =>
    obtain ⟨archived, bytes, hmade, hadds, hcuts⟩ :=
      DumpCall.cuts ⟨s.writer, entries, s.world⟩ (hfall _ List.mem_cons_self) hs hf hnames
    refine ⟨archived, [bytes], hmade, .cons hadds .nil, ?_⟩
    rw [List.flatten_singleton]
    exact hcuts
  | rotate =>
    obtain ⟨archived, hmade, hcuts⟩ := DumpWriter.rotate_cuts fallbacks hs hf
    exact ⟨archived, [], hmade, .nil, hcuts⟩
  | setTarget p cap => exact hstill rfl rfl rfl
  | setFallback p => exact hstill rfl rfl rfl
  | setRetention days => exact hstill rfl rfl rfl
  | outside w => exact hm.elim

/-- A run of dumps and rotations cuts the file into archives. -/
theorem cuts_run {s : Scribe} {ms : List ScribeMove} (hms : ∀ m ∈ ms, m.StaysAt path)
    (hpath : s.writer.path = path) (hs : s.world.disk.Sound) (hf : s.world.disk.ForFile path)
    (hnames : (((Attempt.made (s.attempts ms)).map Attempt.archive).map Path.fileName?).Nodup)
    (hfall : ∀ c ∈ s.dumps ms, c.report.written ≠ c.entries.length →
      c.writer.fallback ∈ fallbacks) :
    ∃ archived parts, archived.map Prod.fst = (Attempt.made (s.attempts ms)).map Attempt.archive ∧
      List.Forall₂ DumpCall.Adds (s.dumps ms) parts ∧
      Cuts path fallbacks s.world.disk archived parts.flatten (s.run ms).world.disk := by
  induction ms generalizing s with
  | nil => exact ⟨[], [], rfl, .nil, .refl hs hf⟩
  | cons m ms ih =>
    obtain ⟨hm, hms⟩ := List.forall_mem_cons.1 hms
    obtain ⟨hfall, hfall'⟩ := List.forall_mem_append.1 hfall
    rw [attempts, Attempt.made_append, List.map_append, List.map_append] at hnames
    obtain ⟨hfirst, hlater, -⟩ := List.nodup_append.1 hnames
    obtain ⟨archived, parts, hmade, hadds, hcuts⟩ := cuts_next hm hpath hs hf hfirst hfall
    obtain ⟨archived', parts', hmade', hadds', hcuts'⟩ :=
      ih hms (path_next hm hpath) hcuts.sound hcuts.forFile hlater hfall'
    rw [← hmade, ← hmade', ← List.map_append, ← List.map_append] at hnames
    refine ⟨archived ++ archived', parts ++ parts', ?_, List.rel_append hadds hadds', ?_⟩
    · rw [attempts, Attempt.made_append, List.map_append, List.map_append, hmade, hmade']
    · rw [List.flatten_append]
      exact hcuts.trans hcuts' (names_apart hnames)

theorem path_attempts {s : Scribe} {ms : List ScribeMove} (hms : ∀ m ∈ ms, m.StaysAt path)
    (hpath : s.writer.path = path) : ∀ a ∈ s.attempts ms, a.1.path = path := by
  induction ms generalizing s with
  | nil => exact nofun
  | cons m ms ih =>
    obtain ⟨hm, hms⟩ := List.forall_mem_cons.1 hms
    refine List.forall_mem_append.2 ⟨fun a ha => ?_, ih hms (path_next hm hpath)⟩
    cases m with
    | dump entries => exact (s.writer.path_rotations entries s.world a ha).trans hpath
    | rotate =>
      obtain rfl := List.mem_singleton.1 ha
      exact hpath
    | setTarget | setFallback | setRetention | outside => cases ha

end Scribe

/-! ## Reading in order -/

/-- The file name of one path comes before that of another. -/
def Path.NamedBefore (p q : Path) : Prop :=
  ∃ name name', p.fileName? = some name ∧ q.fileName? = some name' ∧ name < name'

namespace Path

variable {p q : Path}

theorem NamedBefore.not_symm (h : p.NamedBefore q) : ¬q.NamedBefore p := by
  rintro ⟨last, first, hq, hp, hlt⟩
  obtain ⟨name, name', hname, hname', hlt'⟩ := h
  cases hp.symm.trans hname
  cases hq.symm.trans hname'
  exact List.lt_asymm hlt hlt'

/-- There is one order by name. -/
theorem eq_of_sorted {ps qs : List Path} (h : ps.Perm qs) (hps : ps.Pairwise NamedBefore)
    (hqs : qs.Pairwise NamedBefore) : ps = qs :=
  h.eq_of_pairwise (fun _ _ _ _ hab hba => (hab.not_symm hba).elim) hps hqs

theorem nodup_fileName? {ps : List Path} (h : ps.Pairwise NamedBefore) :
    (ps.map fileName?).Nodup := by
  refine List.pairwise_map.2 (h.imp fun {p q} hbefore heq => ?_)
  obtain ⟨name, name', hname, hname', hlt⟩ := hbefore
  rw [hname, hname', Option.some.injEq] at heq
  exact List.lt_irrefl _ (heq ▸ hlt)

end Path

namespace DumpCall

/-- Dumps that have written all their entries add their lines in order. -/
theorem flatten_of_adds {dumps : List DumpCall} {parts : List Bytes}
    (h : List.Forall₂ Adds dumps parts)
    (hall : ∀ c ∈ dumps, c.report.written = c.entries.length) :
    parts.flatten = renderAll (dumps.flatMap entries) := by
  induction h with
  | nil => rfl
  | cons hadds _ ih =>
    obtain ⟨hc, hall⟩ := List.forall_mem_cons.1 hall
    rw [List.flatten_cons, List.flatMap_cons, renderAll_append, hadds.eq_renderAll hc, ih hall]

end DumpCall

namespace Cuts

variable {path : Path} {fallbacks : List Path} {disk disk' : Disk}
  {archived : List (Path × Bytes)} {bytes : Bytes}

/-- An archive that is still there, and in no place of a fallback file, holds what it was made
with. -/
theorem contents_eq (h : Cuts path fallbacks disk archived bytes disk') {x : Path × Bytes}
    (hx : x ∈ archived) (hthere : disk'.has x.1) (hfall : ∀ f ∈ fallbacks, ¬disk.Meets f x.1) :
    disk'.contents x.1 = x.2 := by
  obtain ⟨t, ht, hnode⟩ := h.holds x hx
  have ht' := h.sameTree.fileTarget ht
  rw [Disk.contents_of_fileTarget ht']
  refine (hnode fun f hf hft => hfall f hf ⟨t, hft, ht⟩).resolve_left fun hgone => ?_
  simp [Disk.has, (Disk.fileTarget_eq_ok_iff.1 ht').1, hgone] at hthere

/-- If all archives are still there, they and the dump file read as what the dump file held and
what has been added. -/
theorem reading_eq (h : Cuts path fallbacks disk archived bytes disk')
    (hall : ∀ x ∈ archived, disk'.has x.1 ∧ ∀ f ∈ fallbacks, ¬disk.Meets f x.1) :
    disk'.reading (archived.map Prod.fst) path = disk.contents path ++ bytes := by
  have hpieces : (archived.map Prod.fst).map disk'.contents = archived.map Prod.snd := by
    rw [List.map_map]
    exact List.map_congr_left fun x hx => h.contents_eq hx (hall x hx).1 (hall x hx).2
  rw [Disk.reading, List.flatMap_def, hpieces, h.whole]

end Cuts

namespace Scribe

/-- The archives of a writer sort by name in the order in which they were made, if the local clock
does not go back from one to the next nor leaves the century, and its sequence does not start
again within a second. So what its dumps add to the file of a path is cut into pieces, one for
each archive and the last in the dump file, and an archive that is still there, and that is no
fallback file too, holds its piece; read in the order of their names, and then the dump file,
they give what the dump file held first and then what the dumps have added, in order. A dump
adds the lines of the entries that it has written, and nothing else if these are all. -/
theorem archives_read_in_order {path : Path} {file : List Char}
    (hfile : path.fileName? = some file) (cap : UInt64) {world : World} {ms : List ScribeMove}
    (hms : ∀ m ∈ ms, m.StaysAt path)
    (horder : Chronological ((new path cap world).attempts ms)) :
    let s := new path cap world
    let archives := (Attempt.made (s.attempts ms)).map Attempt.archive
    let disk := (s.run ms).world.disk
    archives.Pairwise Path.NamedBefore ∧ (∀ a ∈ archives, a.parent? = path.parent?) ∧
      (∀ sorted : List Path, sorted.Perm archives → sorted.Pairwise Path.NamedBefore →
        sorted = archives) ∧
      (world.disk.Sound → world.disk.ForFile path →
        ∃ (archived : List (Path × Bytes)) (parts : List Bytes),
        archived.map Prod.fst = archives ∧ List.Forall₂ DumpCall.Adds (s.dumps ms) parts ∧
        (archived.map Prod.snd).flatten ++ disk.contents path =
          world.disk.contents path ++ parts.flatten ∧
        (∀ x ∈ archived, disk.has x.1 → (∀ f ∈ s.fallbacks ms, ¬world.disk.Meets f x.1) →
          disk.contents x.1 = x.2) ∧
        ((∀ a ∈ archives, disk.has a ∧ ∀ f ∈ s.fallbacks ms, ¬world.disk.Meets f a) →
          disk.reading archives path = world.disk.contents path ++ parts.flatten) ∧
        ((∀ c ∈ s.dumps ms, c.report.written = c.entries.length) →
          parts.flatten = renderAll ((s.dumps ms).flatMap DumpCall.entries))) := by
  intro s archives disk
  have hpath := path_attempts (s := s) hms rfl
  have hnamed : ∀ a ∈ s.attempts ms, a.archive.fileName? = some a.name := fun a ha =>
    Attempt.fileName?_archive (by rw [hpath a ha]; exact hfile)
  have hsorted : archives.Pairwise Path.NamedBefore := by
    have hnames := names_in_order horder hpath
    rw [List.pairwise_map] at hnames ⊢
    refine hnames.imp_of_mem fun {a b} ha hb hlt => ?_
    exact ⟨_, _, hnamed a (List.mem_filter.1 ha).1, hnamed b (List.mem_filter.1 hb).1, hlt⟩
  refine ⟨hsorted, fun p hp => ?_, fun sorted hperm h => Path.eq_of_sorted hperm h hsorted,
    fun hs hf => ?_⟩
  · obtain ⟨a, ha, rfl⟩ := List.mem_map.1 hp
    have ha' := hpath a (List.mem_filter.1 ha).1
    rw [← ha', Attempt.archive, DumpWriter.nextArchive]
    exact Series.parent?_archive (by rw [ha']; exact hfile) _ _
  · have hused : ∀ c ∈ s.dumps ms, c.report.written ≠ c.entries.length →
        c.writer.fallback ∈ s.fallbacks ms := fun c hc hspills =>
      List.mem_map_of_mem (List.mem_filter.2 ⟨hc, by simpa using hspills⟩)
    obtain ⟨archived, parts, hmade, hadds, hcuts⟩ :=
      cuts_run hms rfl hs hf (Path.nodup_fileName? hsorted) hused
    refine ⟨archived, parts, hmade, hadds, hcuts.whole,
      fun x hx hthere hfall => hcuts.contents_eq hx hthere hfall, fun hall => ?_,
      DumpCall.flatten_of_adds hadds⟩
    have hread := hcuts.reading_eq fun x hx => by
      have hmem : x.1 ∈ archived.map Prod.fst := List.mem_map_of_mem hx
      exact hall x.1 (by rwa [hmade] at hmem)
    rwa [hmade] at hread

/-- Two archives of one second, an hour ahead of Greenwich, and an entry in the dump file. -/
theorem archives_read_in_order_of_two :
    let path : Path := ⟨"app.log"⟩
    let entry : Nat → Entry := fun n => .tagged (.utc n) .info "t" [.text "x"]
    let ms : List ScribeMove :=
      [.dump [entry 1], .dump [entry 2], .setTarget path 1000, .dump [entry 3]]
    let world : World := { World.calm ⟨[], []⟩ fun _ => 0 with zone := fun _ => 3600 }
    let s := new path 1 world
    path.fileName? = some "app.log".toList ∧ (∀ m ∈ ms, m.StaysAt path) ∧
      Chronological (s.attempts ms) ∧ world.disk.Sound ∧ world.disk.ForFile path ∧
      (s.run ms).world.disk.reading [⟨"app_700101_010000_00001.log"⟩, ⟨"app_700101_010000_00002.log"⟩]
        path = renderAll [entry 1, entry 2, entry 3] := by
  intro path entry ms world s
  have hlen : (s.attempts ms).length = 2 := by decide +kernel
  have hoffset : ∀ a ∈ Attempt.made (s.attempts ms), a.2.localNow.offset = 3600 := by
    decide +kernel
  have horder : Chronological (s.attempts ms) := by
    refine ⟨Attempt.forward_of_offset hoffset (by decide +kernel), by decide +kernel, fun j k a b hjk _ hk _ _ _ i x hi hik hx => ?_⟩
    obtain ⟨hlt, -⟩ := List.getElem?_eq_some_iff.1 hx
    rw [nextSequence_attempts hx]
    unfold lastSequence
    omega
  have hms : ∀ m ∈ ms, m.StaysAt path := by simp [ms, ScribeMove.StaysAt]
  have hfile : path.fileName? = some "app.log".toList := by decide +kernel
  have hs : world.disk.Sound := Disk.sound_empty
  have hf : world.disk.ForFile path := by
    refine ⟨Disk.not_hasDevice_empty path, fun t ht => ?_⟩
    have hplace : (world.disk.resolve path).toOption = some ⟨["app.log"], .name⟩ := by
      decide +kernel
    rw [ht] at hplace
    cases hplace
    decide +kernel
  refine ⟨hfile, hms, horder, hs, hf, ?_⟩
  obtain ⟨-, -, -, hreads⟩ := archives_read_in_order hfile 1 hms horder
  obtain ⟨archived, parts, -, -, -, -, hread, hparts⟩ := hreads hs hf
  have harchives : (Attempt.made (s.attempts ms)).map Attempt.archive =
      [⟨"app_700101_010000_00001.log"⟩, ⟨"app_700101_010000_00002.log"⟩] := by decide +kernel
  have hnone : ∀ f : Path, f ∉ s.fallbacks ms :=
    List.eq_nil_iff_forall_not_mem.1 (by decide +kernel)
  have hthere : ∀ a ∈ (Attempt.made (s.attempts ms)).map Attempt.archive,
      (s.run ms).world.disk.has a := by decide +kernel
  have hempty : world.disk.contents path = [] := by decide +kernel
  rw [← harchives, hread fun a ha => ⟨hthere a ha, fun f hf => (hnone f hf).elim⟩,
    hparts (by decide +kernel), hempty]
  rfl

end Scribe

end LogPipeline
