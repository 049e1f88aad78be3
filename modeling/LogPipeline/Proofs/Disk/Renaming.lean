import LogPipeline.Proofs.Disk.Tree

/-!
# Renaming, whatever is renamed

A rename takes everything at a place and below it to another place, where only a file or
an empty directory can have been, which is gone then (`Displaces`). A sound disk stays
sound (`Displaces.sound`), so that disks can be followed through any number of renames.
-/

namespace LogPipeline

namespace Disk

/-! ## Moved places -/

section Moved

variable {s t q r : Place}

theorem movedPlace_append (s t rest : Place) : movedPlace s t (s ++ rest) = t ++ rest := by
  simp [movedPlace]

theorem movedPlace_self (s t : Place) : movedPlace s t s = t := by simp [movedPlace]

theorem movedPlace_outside (t : Place) (h : ¬s <+: q) : movedPlace s t q = q := by
  rw [movedPlace, if_neg (by simpa [List.isPrefixOf_iff_prefix] using h)]

theorem movedPlace_ne_nil (ht : t ≠ []) (hq : q ≠ []) : movedPlace s t q ≠ [] := by
  unfold movedPlace
  split
  · simp [ht]
  · exact hq

/-- Places that are not below the target stay apart. -/
theorem movedPlace_inj (hq : ¬t <+: q) (hr : ¬t <+: r)
    (h : movedPlace s t q = movedPlace s t r) : q = r := by
  by_cases hsq : s <+: q <;> by_cases hsr : s <+: r
  · obtain ⟨x, rfl⟩ := hsq
    obtain ⟨y, rfl⟩ := hsr
    rw [movedPlace_append, movedPlace_append] at h
    rw [List.append_cancel_left h]
  · obtain ⟨x, rfl⟩ := hsq
    rw [movedPlace_append, movedPlace_outside t hsr] at h
    exact (hr ⟨x, h⟩).elim
  · obtain ⟨y, rfl⟩ := hsr
    rw [movedPlace_append, movedPlace_outside t hsq] at h
    exact (hq ⟨y, h.symm⟩).elim
  · rwa [movedPlace_outside t hsq, movedPlace_outside t hsr] at h

end Moved

/-! ## Where a path leads -/

theorem follow_ne_nil {d : Disk} {u : Target} {pieces : List (List Char)} {place : Place}
    {ending : PathEnd} (hplace : ending ≠ .dots → place ≠ [])
    (hu : d.follow place ending pieces = .ok u) (hend : u.ending ≠ .dots) : u.place ≠ [] := by
  induction pieces generalizing place ending with
  | nil =>
    cases hu
    exact hplace hend
  | cons piece rest ih =>
    rw [follow] at hu
    split at hu
    · exact ih hplace hu
    · split at hu
      · exact ih (by simp) hu
      · split at hu
        · exact ih (by simp) hu
        · simp only at hu
          split at hu
          · cases hu
          · split at hu
            · cases hu
              simp
            · split at hu
              · cases hu
              · exact ih (by simp) hu
              · cases hu

/-- A path that does not end in dots does not lead to the root. -/
theorem resolve_ne_nil {d : Disk} {p : Path} {u : Target} (hu : d.resolve p = .ok u)
    (hend : u.ending ≠ .dots) : u.place ≠ [] := by
  unfold resolve at hu
  split at hu
  · cases hu
  · split at hu
    · cases hu
    · split at hu
      · cases hu
      · exact follow_ne_nil (by simp) hu hend

/-- Everything on the way to where a path leads is a directory. -/
theorem Sound.directory_above {d : Disk} (h : d.Sound) {p : Path} {u : Target}
    (hu : d.resolve p = .ok u) {r : Place} (hr : r <+: u.place) (hne : r ≠ u.place) :
    d.node? r = some .directory := by
  rcases h.resolve_cases hu with ⟨-, hdir⟩ | ⟨-, dir, name, hplace, hdir⟩
  · exact h.above u.place (by simp [hdir]) r hr hne
  · rw [hplace] at hr hne
    have hpre : r <+: dir := (List.prefix_concat_iff.1 hr).resolve_left hne
    by_cases heq : r = dir
    · exact heq ▸ hdir
    · exact h.above dir (by simp [hdir]) r hpre heq

/-! ## What a rename does -/

/-- What is not below a place is not removed with it. -/
theorem lookup_erase (d : Disk) {t q : Place} (h : ¬t <+: q) :
    (d.erase t).nodes.lookup q = d.nodes.lookup q := by
  unfold erase
  induction d.nodes with
  | nil => rfl
  | cons e nodes ih =>
    obtain ⟨k, node⟩ := e
    by_cases hq : q = k
    · subst hq
      have hkept : (!t.isPrefixOf q) = true := by
        simpa [← List.isPrefixOf_iff_prefix] using h
      rw [List.filter_cons, if_pos hkept, List.lookup_cons_self, List.lookup_cons_self]
    · rw [List.filter_cons, List.lookup_cons, beq_eq_false_iff_ne.2 hq]
      split
      · rw [List.lookup_cons, beq_eq_false_iff_ne.2 hq]
        exact ih
      · exact ih

/-- A disk after everything at `s` and below it has moved to `t`, where a file or an
empty directory may have been. -/
structure Displaces (d d' : Disk) (s t : Place) : Prop where
  source_ne : s ≠ []
  target_ne : t ≠ []
  apart : ¬s <+: t
  was : (d.node? s).isSome
  /-- A directory takes the place of a directory, and a file that of a file. -/
  alike : (d.node? t).isSome → (d.node? t = some .directory ↔ d.node? s = some .directory)
  above : ∀ r, r <+: t → r ≠ t → d.node? r = some .directory
  below : ∀ q, t <+: q → (d.node? q).isSome → q = t
  here : d'.here = movedPlace s t d.here
  nodes : d'.nodes = (d.erase t).nodes.map fun e => (movedPlace s t e.1, e.2)

theorem mem_children {d : Disk} {t : Place} {x : String}
    (h : (d.node? (t ++ [x])).isSome) : t ++ [x] ∈ d.children t := by
  rw [node?_of_ne_nil d (by simp), List.lookup_isSome_iff] at h
  obtain ⟨⟨q, node⟩, he, heq⟩ := h
  obtain rfl : t ++ [x] = q := by simpa using heq
  simp only [children, List.mem_filter, List.mem_map]
  exact ⟨⟨_, he, rfl⟩, by simp⟩

/-- Nothing stands below a directory without children. -/
theorem Sound.eq_of_children_nil {d : Disk} (h : d.Sound) {t q : Place}
    (hnil : d.children t = []) (hpre : t <+: q) (hq : (d.node? q).isSome) : q = t := by
  obtain ⟨rest, rfl⟩ := hpre
  cases rest with
  | nil => exact List.append_nil t
  | cons x rest =>
    have hx : (d.node? (t ++ [x])).isSome := by
      by_cases hrest : rest = []
      · rwa [← hrest]
      · have hdir := h.above (t ++ x :: rest) hq (t ++ [x]) ⟨rest, by simp⟩ (by simp [Ne.symm hrest])
        simp [hdir]
    have hmem := mem_children hx
    rw [hnil] at hmem
    cases hmem

/-- What is moved is there; a directory moves out of itself, to where nothing or an empty
directory is, and a file to a name that no directory has. -/
theorem checkMove_ok {d : Disk} {s t : Target} (h : d.checkMove s t = .ok ()) :
    s.ending ≠ .dots ∧ t.ending ≠ .dots ∧
      (d.node? s.place = some .directory ∧
          (s.place = t.place ∨ ¬s.place <+: t.place ∧ (d.node? t.place = none ∨
            d.node? t.place = some .directory ∧ d.children t.place = [])) ∨
        (∃ node, d.node? s.place = some node ∧ node ≠ .directory) ∧
          d.node? t.place ≠ some .directory ∧ t.ending = .name) := by
  unfold checkMove at h
  split at h
  · cases h
  · next hdots =>
    simp only [Bool.or_eq_true, decide_eq_true_eq, not_or] at hdots
    refine ⟨hdots.1, hdots.2, ?_⟩
    split at h
    · cases h
    · next hs =>
      simp only [Bool.and_eq_true, List.isPrefixOf_iff_prefix, decide_eq_true_eq] at h
      split at h
      · cases h
      · next hapart =>
        by_cases hne : s.place = t.place
        · exact .inl ⟨hs, .inl hne⟩
        · refine .inl ⟨hs, .inr ⟨fun hpre => hapart ⟨hpre, hne⟩, ?_⟩⟩
          split at h
          · next ht => exact .inl ht
          · next ht =>
            split at h
            · cases h
            · next hnil => exact .inr ⟨ht, by simpa [hne] using hnil⟩
          · cases h
    · cases h
    · next node hs hnode htarget =>
      split at h
      · cases h
      · next hnames =>
        simp only [Target.asDirectory, Bool.or_eq_true, bne_iff_ne, not_or,
          Decidable.not_not] at hnames
        exact .inr ⟨⟨node, hnode, hs⟩, htarget, hnames.2⟩

/-- A rename moves what is at one path to the other, unless both lead to the same place. -/
theorem Sound.rename_cases {d d' : Disk} (h : d.Sound) {source target : Path}
    (hrename : d.rename source target = .ok d') :
    ∃ s t, d.resolve source = .ok s ∧ d.resolve target = .ok t ∧ (d.node? s.place).isSome ∧
      (d.node? s.place ≠ some .directory →
        t.ending = .name ∧ d.node? t.place ≠ some .directory) ∧
      (s.place = t.place ∧ d' = d ∨ Displaces d d' s.place t.place) := by
  unfold rename at hrename
  split at hrename
  · cases hrename
  · cases hrename
  · next s t hs ht =>
    split at hrename
    · cases hrename
    · next hcheck =>
      obtain ⟨hsend, htend, hkinds⟩ := checkMove_ok hcheck
      have habove := fun r => h.directory_above ht (r := r)
      refine ⟨s, t, hs, ht, ?_, fun hsdir => ?_, ?_⟩
      · rcases hkinds with ⟨hdir, -⟩ | ⟨⟨node, hnode, -⟩, -⟩
        · simp [hdir]
        · simp [hnode]
      · rcases hkinds with ⟨hdir, -⟩ | ⟨-, htarget, hname⟩
        · exact (hsdir hdir).elim
        · exact ⟨hname, htarget⟩
      split at hrename
      · next heq =>
        cases hrename
        exact .inl ⟨heq, rfl⟩
      · next hne =>
        cases hrename
        right
        rcases hkinds with ⟨hdir, heq | ⟨hapart, htarget⟩⟩ | ⟨⟨node, hnode, hfile⟩, htarget, -⟩
        · exact (hne heq).elim
        · refine ⟨resolve_ne_nil hs hsend, resolve_ne_nil ht htend, hapart, by simp [hdir], ?_,
            habove, fun q hpre hq => ?_, rfl, rfl⟩
          · rcases htarget with hnone | ⟨hdir', -⟩
            · simp [hnone]
            · simp [hdir, hdir']
          · rcases htarget with hnone | ⟨-, hnil⟩
            · exact (h.eq_of_prefix hq (by simp [hnone]) hpre).symm
            · exact h.eq_of_children_nil hnil hpre hq
        · have hsdir : d.node? s.place ≠ some .directory := by simpa [hnode] using hfile
          refine ⟨resolve_ne_nil hs hsend, resolve_ne_nil ht htend, fun hpre => ?_, by simp [hnode],
            fun _ => iff_of_false htarget hsdir, habove, fun q hpre hq => ?_, rfl, rfl⟩
          · exact hsdir (habove _ hpre hne)
          · exact (h.eq_of_prefix hq htarget hpre).symm

namespace Displaces

variable {d d' : Disk} {s t : Place}

/-- Everything that is not at the target is where its place has moved. -/
theorem node?_moved (h : Displaces d d' s t) {q : Place} (hq : (d.node? q).isSome) (hne : q ≠ t) :
    d'.node? (movedPlace s t q) = d.node? q := by
  have hpre : ¬t <+: q := fun hpre => hne (h.below q hpre hq)
  by_cases hnil : q = []
  · subst hnil
    rw [movedPlace_outside t (by simpa using h.source_ne), node?_nil, node?_nil]
  · rw [node?_of_ne_nil d' (movedPlace_ne_nil h.target_ne hnil), node?_of_ne_nil d hnil, h.nodes,
      ← lookup_erase d hpre]
    refine lookup_map_key fun e he => ⟨movedPlace_inj ?_ hpre, fun heq => by rw [heq]⟩
    simpa [← List.isPrefixOf_iff_prefix] using (List.mem_filter.1 he).2

/-- The target holds what was moved. -/
theorem node?_target (h : Displaces d d' s t) : d'.node? t = d.node? s := by
  have hst : s ≠ t := fun hst => h.apart (hst ▸ List.prefix_refl s)
  rw [← h.node?_moved h.was hst, movedPlace_self]

/-- Everything on the new disk was on the old one, and not at the target. -/
theorem exists_of_isSome (h : Displaces d d' s t) {r : Place} (hr : (d'.node? r).isSome) :
    ∃ q, q ≠ t ∧ (d.node? q).isSome ∧ r = movedPlace s t q := by
  by_cases hnil : r = []
  · subst hnil
    exact ⟨[], h.target_ne.symm, by simp [node?_nil],
      (movedPlace_outside t (by simpa using h.source_ne)).symm⟩
  · rw [node?_of_ne_nil d' hnil, h.nodes, List.lookup_isSome_iff] at hr
    obtain ⟨e, he, heq⟩ := hr
    obtain ⟨e, hkept, rfl⟩ := List.mem_map.1 he
    obtain ⟨hmem, hkept⟩ := List.mem_filter.1 hkept
    refine ⟨e.1, ?_, isSome_node?_of_mem hmem, by simpa using heq⟩
    rintro rfl
    have hpre := List.isPrefixOf_iff_prefix.2 (List.prefix_refl e.1)
    simp [hpre] at hkept

theorem sound (h : Displaces d d' s t) (hd : d.Sound) : d'.Sound := by
  have hdir : ∀ q, d.node? q = some .directory → q ≠ t → ¬s <+: q →
      d'.node? q = some .directory := fun q hq hne hpre => by
    rw [← hq, ← h.node?_moved (by simp [hq]) hne, movedPlace_outside t hpre]
  refine ⟨?_, fun r hr r' hpre hne => ?_⟩
  · rw [h.here]
    by_cases hhere : d.here = t
    · rw [hhere, movedPlace_outside t h.apart, h.node?_target]
      exact (h.alike (by simp [← hhere, hd.here])).1 (hhere ▸ hd.here)
    · rw [h.node?_moved (by simp [hd.here]) hhere, hd.here]
  · obtain ⟨q, hqt, hq, rfl⟩ := h.exists_of_isSome hr
    by_cases hs : s <+: q
    · obtain ⟨x, rfl⟩ := hs
      rw [movedPlace_append] at hpre hne
      by_cases hbelow : t <+: r'
      · -- a part of what has moved
        obtain ⟨y, rfl⟩ := hbelow
        have hy : d.node? (s ++ y) = some .directory := by
          refine hd.above _ hq _ ((List.prefix_append_right_inj s).2 ?_) ?_
          · exact (List.prefix_append_right_inj t).1 hpre
          · rintro heq
            exact hne (by rw [List.append_cancel_left heq])
        rw [← movedPlace_append s t y, h.node?_moved (by simp [hy]) ?_, hy]
        rintro heq
        exact h.apart ⟨y, heq⟩
      · -- something on the way to the target
        have hover : r' <+: t :=
          (List.prefix_or_prefix_of_prefix hpre (List.prefix_append t x)).resolve_right hbelow
        have hr't : r' ≠ t := fun heq => hbelow (heq ▸ List.prefix_refl t)
        exact hdir r' (h.above r' hover hr't) hr't fun hs => h.apart (hs.trans hover)
    · rw [movedPlace_outside t hs] at hpre hne
      refine hdir r' (hd.above q hq r' hpre hne) ?_ fun hs' => hs (hs'.trans hpre)
      rintro rfl
      exact hqt (h.below q hpre hq)

/-- A file that moves leaves everything else in its place. -/
theorem of_file (h : Displaces d d' s t) (hd : d.Sound) (hs : d.node? s ≠ some .directory) :
    d'.here = d.here ∧ ∀ q, d'.node? q =
      if q = t then d.node? s else if q = s then none else d.node? q := by
  have hunique : ∀ q, (d.node? q).isSome → s <+: q → s = q := fun q hq =>
    hd.eq_of_prefix hq hs
  have hhere : ¬s <+: d.here := fun hpre =>
    hs (by rw [hunique _ (by simp [hd.here]) hpre, hd.here])
  refine ⟨by rw [h.here, movedPlace_outside t hhere], fun q => ?_⟩
  by_cases hqt : q = t
  · rw [if_pos hqt, hqt, h.node?_target]
  rw [if_neg hqt]
  by_cases hold : (d.node? q).isSome ∧ q ≠ s
  · have hpre : ¬s <+: q := fun hpre => hold.2 (hunique q hold.1 hpre).symm
    rw [if_neg hold.2, ← h.node?_moved hold.1 hqt, movedPlace_outside t hpre]
  · -- what is on the new disk was there before and has not moved, unless it is the file
    have hnone : d'.node? q = none := by
      refine Option.not_isSome_iff_eq_none.1 fun hq => ?_
      obtain ⟨r, hrt, hr, rfl⟩ := h.exists_of_isSome hq
      by_cases hpre : s <+: r
      · obtain rfl := hunique r hr hpre
        exact hqt (movedPlace_self s t)
      · rw [movedPlace_outside t hpre] at hold
        exact hold ⟨hr, fun hrs => hpre (hrs ▸ List.prefix_refl s)⟩
    rw [hnone]
    by_cases hqs : q = s
    · rw [if_pos hqs]
    · rw [if_neg hqs]
      exact (Option.not_isSome_iff_eq_none.1 fun hq => hold ⟨hq, hqs⟩).symm

/-- A file that takes the place of another leaves the directories as they are. -/
theorem sameTree_of_file (h : Displaces d d' s t) (hd : d.Sound)
    (hs : d.node? s ≠ some .directory) : SameTree d d' := by
  obtain ⟨hhere, hnodes⟩ := h.of_file hd hs
  refine ⟨hhere, fun q => ?_⟩
  rw [hnodes]
  split
  · next hq =>
    refine iff_of_false hs fun ht => hs ((h.alike ?_).1 ?_)
    · simp [← hq, ht]
    · rwa [← hq]
  · split
    · next hq => simpa [hq] using hs
    · rfl

/-- A file moves to where nothing was. -/
theorem moves (h : Displaces d d' s t) (hd : d.Sound) (hs : d.node? s ≠ some .directory)
    (hfree : d.node? t = none) (hparent : ∃ dir name, t = dir ++ [name] ∧
      d.node? dir = some .directory) : Moves d d' s t := by
  obtain ⟨hhere, hnodes⟩ := h.of_file hd hs
  obtain ⟨node, hnode⟩ := Option.isSome_iff_exists.1 h.was
  exact ⟨hhere, ⟨node, hnode, fun hdir => hs (hdir ▸ hnode)⟩, hfree, hparent, hnodes⟩

end Displaces

/-- A file renamed to a path where nothing is moves to the place of that path. -/
theorem Sound.moves_of_rename {d d' : Disk} (h : d.Sound) {source target : Path} {s : Place}
    (hs : d.fileTarget source = .ok s) (hfree : d.has target = false)
    (hrename : d.rename source target = .ok d') :
    ∃ t, d.resolve target = .ok ⟨t, .name⟩ ∧ Moves d d' s t := by
  obtain ⟨hsource, hsdir⟩ := fileTarget_eq_ok_iff.1 hs
  obtain ⟨s', ⟨t, ending⟩, hs', ht, hwas, hname, hmoved⟩ := h.rename_cases hrename
  cases hsource.symm.trans hs'
  obtain ⟨rfl, htdir⟩ := hname hsdir
  have hnone : d.node? t = none := by
    simp only [has, ht] at hfree
    split at hfree
    · cases hfree
    · cases hfree
    · assumption
  rcases hmoved with ⟨heq, -⟩ | hmoved
  · obtain rfl : s = t := heq
    simp [hnone] at hwas
  · exact ⟨t, ht, hmoved.moves h hsdir hnone (h.resolve_name ht rfl)⟩

end Disk

end LogPipeline
