import LogPipeline.Disk.World

/-!
# Disks as trees

A disk is sound when the current directory exists and everything stands in a
directory. Paths are followed through directories alone, so that two disks with
the same directories lead every path to the same place (`SameTree`); files may
come, grow, go and be renamed without any path leading elsewhere. What putting
a file does is said place by place (`node?_put`), and what a file that has moved
leaves behind (`Moves`).
-/

namespace LogPipeline

/-! ## Look-ups -/

section Lookup

variable {l : List (Place × Node)} {q r : Place}

/-- A list whose keys have changed, looked up at the new form of a key. -/
theorem lookup_map_key {g : Place → Place} (h : ∀ e ∈ l, g e.1 = q ↔ e.1 = r) :
    (l.map fun e => (g e.1, e.2)).lookup q = l.lookup r := by
  induction l with
  | nil => rfl
  | cons e l ih =>
    have he := h e List.mem_cons_self
    have hl := ih fun e' he' => h e' (List.mem_cons_of_mem e he')
    obtain ⟨k, node⟩ := e
    by_cases hk : k = r
    · have hq : q = g k := (he.2 hk).symm
      subst hk
      subst hq
      simp
    · have hq : q ≠ g k := fun hq => hk (he.1 hq.symm)
      rw [List.map_cons, List.lookup_cons, List.lookup_cons, beq_eq_false_iff_ne.2 hq,
        beq_eq_false_iff_ne.2 (Ne.symm hk)]
      exact hl

theorem lookup_map_replace {place : Place} {node : Node} :
    (l.map fun e => if e.1 = place then (place, node) else e).lookup q =
      if q = place then (l.lookup place).map fun _ => node else l.lookup q := by
  induction l with
  | nil => simp
  | cons e l ih =>
    obtain ⟨k, node'⟩ := e
    by_cases hk : k = place
    · subst hk
      rw [List.map_cons, if_pos rfl, List.lookup_cons, ih]
      by_cases hq : q = k
      · simp [hq]
      · simp [hq, List.lookup_cons, beq_eq_false_iff_ne.2 hq]
    · rw [List.map_cons, if_neg hk, List.lookup_cons, ih]
      by_cases hq : q = k
      · simp [hq, hk]
      · simp [List.lookup_cons, beq_eq_false_iff_ne.2 hq, beq_eq_false_iff_ne.2 (Ne.symm hk)]

theorem lookup_concat {place : Place} {node : Node} (h : l.lookup place = none) :
    (l ++ [(place, node)]).lookup q = if q = place then some node else l.lookup q := by
  rw [List.lookup_append]
  by_cases hq : q = place
  · simp [hq, h]
  · simp [hq, List.lookup_cons, beq_eq_false_iff_ne.2 hq]

end Lookup

namespace Disk

theorem node?_nil (d : Disk) : d.node? [] = some .directory := by simp [node?]

theorem node?_of_ne_nil (d : Disk) {q : Place} (h : q ≠ []) : d.node? q = d.nodes.lookup q := by
  simp [node?, h]

/-- Putting something at a place changes that place only. -/
theorem node?_put (d : Disk) {place : Place} (hne : place ≠ []) (node : Node) (q : Place) :
    (d.put place node).node? q = if q = place then some node else d.node? q := by
  by_cases hq : q = []
  · subst hq
    simp [node?_nil, hne.symm]
  · rw [node?_of_ne_nil _ hq, node?_of_ne_nil _ hq]
    unfold put
    split
    · next h =>
      obtain ⟨old, hold⟩ := Option.isSome_iff_exists.1 h
      simp [lookup_map_replace, hold]
    · next h => exact lookup_concat (Option.not_isSome_iff_eq_none.1 h)

theorem put_here (d : Disk) (place : Place) (node : Node) : (d.put place node).here = d.here := by
  unfold put
  split <;> rfl

/-! ## Sound disks -/

/-- The current directory exists, and everything stands in a directory. -/
structure Sound (d : Disk) : Prop where
  here : d.node? d.here = some .directory
  above : ∀ q, (d.node? q).isSome → ∀ r, r <+: q → r ≠ q → d.node? r = some .directory

/-- An empty disk is sound. -/
theorem sound_empty : Sound ⟨[], []⟩ where
  here := node?_nil _
  above q hq r hr hne := by
    by_cases hq' : q = []
    · subst hq'
      exact (hne (List.prefix_nil.1 hr)).elim
    · simp [node?_of_ne_nil _ hq'] at hq

theorem Sound.dropLast {d : Disk} (h : d.Sound) {q : Place} (hq : d.node? q = some .directory) :
    d.node? q.dropLast = some .directory := by
  by_cases hne : q = []
  · subst hne
    exact hq
  · refine h.above q (by simp [hq]) _ (List.dropLast_prefix q) fun heq => ?_
    have := congrArg List.length heq
    have := List.length_pos_iff.2 hne
    simp only [List.length_dropLast] at *
    omega

/-- Nothing stands below a place that is no directory. -/
theorem Sound.eq_of_prefix {d : Disk} (h : d.Sound) {r q : Place} (hq : (d.node? q).isSome)
    (hr : d.node? r ≠ some .directory) (hpre : r <+: q) : r = q :=
  Classical.byContradiction fun hne => hr (h.above q hq r hpre hne)

/-- A path leads to a directory, or ends in a name and leads to a place in one. -/
theorem Sound.follow_cases {d : Disk} (h : d.Sound) {t : Target} {pieces : List (List Char)}
    {place : Place} {ending : PathEnd} (hplace : d.node? place = some .directory)
    (hending : ending ≠ .name) (ht : d.follow place ending pieces = .ok t) :
    t.ending ≠ .name ∧ d.node? t.place = some .directory ∨
      t.ending = .name ∧ ∃ dir name, t.place = dir ++ [name] ∧ d.node? dir = some .directory := by
  induction pieces generalizing place ending with
  | nil =>
    cases ht
    exact .inl ⟨hending, hplace⟩
  | cons piece rest ih =>
    rw [follow] at ht
    split at ht
    · exact ih hplace hending ht
    · split at ht
      · exact ih hplace (by simp) ht
      · split at ht
        · exact ih (h.dropLast hplace) (by simp) ht
        · simp only at ht
          split at ht
          · cases ht
          · split at ht
            · cases ht
              exact .inr ⟨rfl, place, _, rfl, hplace⟩
            · split at ht
              · cases ht
              · next hdir => exact ih hdir (by simp) ht
              · cases ht

theorem Sound.resolve_cases {d : Disk} (h : d.Sound) {p : Path} {t : Target}
    (ht : d.resolve p = .ok t) :
    t.ending ≠ .name ∧ d.node? t.place = some .directory ∨
      t.ending = .name ∧ ∃ dir name, t.place = dir ++ [name] ∧ d.node? dir = some .directory := by
  unfold resolve at ht
  split at ht
  · cases ht
  · split at ht
    · cases ht
    · split at ht
      · cases ht
      · refine h.follow_cases ?_ (by simp) ht
        split
        · exact d.node?_nil
        · exact h.here

theorem Sound.resolve_name {d : Disk} (h : d.Sound) {p : Path} {t : Target}
    (ht : d.resolve p = .ok t) (hname : t.ending = .name) :
    ∃ dir name, t.place = dir ++ [name] ∧ d.node? dir = some .directory := by
  rcases h.resolve_cases ht with ⟨hne, -⟩ | ⟨-, hdir⟩
  · exact (hne hname).elim
  · exact hdir

theorem fileTarget_eq_ok_iff {d : Disk} {p : Path} {place : Place} :
    d.fileTarget p = .ok place ↔
      d.resolve p = .ok ⟨place, .name⟩ ∧ d.node? place ≠ some .directory := by
  unfold fileTarget
  cases hr : d.resolve p with
  | error e => simp
  | ok t =>
    obtain ⟨q, ending⟩ := t
    by_cases hq : d.node? q = some .directory
    · simp only [Target.asDirectory, isDirectory, hq]
      simp only [decide_true, Bool.or_true, if_true, reduceCtorEq, false_iff, not_and,
        Except.ok.injEq, Target.mk.injEq]
      rintro ⟨rfl, -⟩
      simp [hq]
    · cases ending <;> simp [Target.asDirectory, isDirectory, hq]
      rintro rfl
      exact hq

/-- A file to be written stands in a directory. -/
theorem Sound.fileTarget_parent {d : Disk} (h : d.Sound) {p : Path} {place : Place}
    (ht : d.fileTarget p = .ok place) :
    ∃ dir name, place = dir ++ [name] ∧ d.node? dir = some .directory :=
  h.resolve_name (fileTarget_eq_ok_iff.1 ht).1 rfl

theorem Sound.fileTarget_ne_nil {d : Disk} (h : d.Sound) {p : Path} {place : Place}
    (ht : d.fileTarget p = .ok place) : place ≠ [] := by
  obtain ⟨dir, name, rfl, -⟩ := h.fileTarget_parent ht
  simp

/-! ## Disks with the same directories -/

/-- Two disks have the same directories, one of them the current one of both. -/
structure SameTree (d d' : Disk) : Prop where
  here : d'.here = d.here
  directory : ∀ q, d'.node? q = some .directory ↔ d.node? q = some .directory

namespace SameTree

theorem refl (d : Disk) : SameTree d d := ⟨rfl, fun _ => Iff.rfl⟩

theorem symm {d d' : Disk} (h : SameTree d d') : SameTree d' d :=
  ⟨h.here.symm, fun q => (h.directory q).symm⟩

theorem trans {d d' d'' : Disk} (h : SameTree d d') (h' : SameTree d' d'') : SameTree d d'' :=
  ⟨h'.here.trans h.here, fun q => (h'.directory q).trans (h.directory q)⟩

theorem follow {d d' : Disk} (h : SameTree d d') {t : Target} {pieces : List (List Char)}
    {place : Place} {ending : PathEnd} (ht : d.follow place ending pieces = .ok t) :
    d'.follow place ending pieces = .ok t := by
  induction pieces generalizing place ending with
  | nil => exact ht
  | cons piece rest ih =>
    rw [Disk.follow] at ht ⊢
    split at ht
    · next hp => rw [if_pos hp]; exact ih ht
    · next hp =>
      rw [if_neg hp]
      split at ht
      · next hdot => rw [if_pos hdot]; exact ih ht
      · next hdot =>
        rw [if_neg hdot]
        split at ht
        · next hdots => rw [if_pos hdots]; exact ih ht
        · next hdots =>
          rw [if_neg hdots]
          simp only at ht ⊢
          split at ht
          · cases ht
          · next hlen =>
            rw [if_neg hlen]
            split at ht
            · next hrest => rw [if_pos hrest]; exact ht
            · next hrest =>
              rw [if_neg hrest]
              split at ht
              · cases ht
              · next hdir =>
                rw [(h.directory _).2 hdir]
                exact ih ht
              · cases ht

/-- A path leads to the same place on both disks. -/
theorem resolve {d d' : Disk} (h : SameTree d d') {p : Path} {t : Target}
    (ht : d.resolve p = .ok t) : d'.resolve p = .ok t := by
  unfold Disk.resolve at ht ⊢
  split at ht
  · cases ht
  · next hempty =>
    rw [if_neg hempty]
    split at ht
    · cases ht
    · next hnul =>
      rw [if_neg hnul]
      split at ht
      · cases ht
      · next hlong =>
        rw [if_neg hlong, h.here]
        exact h.follow ht

theorem fileTarget {d d' : Disk} (h : SameTree d d') {p : Path} {place : Place}
    (ht : d.fileTarget p = .ok place) : d'.fileTarget p = .ok place := by
  obtain ⟨hr, hne⟩ := fileTarget_eq_ok_iff.1 ht
  exact fileTarget_eq_ok_iff.2 ⟨h.resolve hr, fun hdir => hne ((h.directory place).1 hdir)⟩

end SameTree

/-! ## Contents -/

/-- The contents of the file at a place; nothing if there is none. -/
def bytesAt (d : Disk) (place : Place) : Bytes :=
  match d.node? place with
  | some (.file contents _) => contents
  | _ => []

/-- The contents of the file that a path leads to; nothing if there is none. -/
def contents (d : Disk) (p : Path) : Bytes :=
  match d.read p with
  | .ok bytes => bytes
  | .error _ => []

theorem contents_of_fileTarget {d : Disk} {p : Path} {place : Place}
    (h : d.fileTarget p = .ok place) : d.contents p = d.bytesAt place := by
  unfold contents read bytesAt
  rw [h]
  simp only
  split <;> split at * <;> simp_all

theorem contents_of_fileTarget_error {d : Disk} {p : Path} {e : IoError}
    (h : d.fileTarget p = .error e) : d.contents p = [] := by
  simp [contents, read, h]

theorem bytesAt_of_file {d : Disk} {place : Place} {bytes : Bytes} {m : Nanos}
    (h : d.node? place = some (.file bytes m)) : d.bytesAt place = bytes := by
  simp [bytesAt, h]

theorem bytesAt_of_none {d : Disk} {place : Place} (h : d.node? place = none) :
    d.bytesAt place = [] := by
  simp [bytesAt, h]

theorem bytesAt_congr {d d' : Disk} {q q' : Place} (h : d'.node? q' = d.node? q) :
    d'.bytesAt q' = d.bytesAt q := by
  simp [bytesAt, h]

/-! ## Files that change -/

/-- One disk is another but for one place, where no directory stands. -/
structure Alters (d d' : Disk) (place : Place) : Prop where
  here : d'.here = d.here
  others : ∀ q, q ≠ place → d'.node? q = d.node? q
  was : d.node? place ≠ some .directory
  now : d'.node? place ≠ some .directory

namespace Alters

variable {d d' d'' : Disk} {place : Place}

theorem refl (h : d.node? place ≠ some .directory) : Alters d d place :=
  ⟨rfl, fun _ _ => rfl, h, h⟩

theorem trans (h : Alters d d' place) (h' : Alters d' d'' place) : Alters d d'' place where
  here := h'.here.trans h.here
  others q hq := (h'.others q hq).trans (h.others q hq)
  was := h.was
  now := h'.now

theorem sameTree (h : Alters d d' place) : SameTree d d' := by
  refine ⟨h.here, fun q => ?_⟩
  by_cases hq : q = place
  · subst hq
    exact iff_of_false h.now h.was
  · rw [h.others q hq]

theorem sound (h : Alters d d' place) (hd : d.Sound)
    (hparent : ∃ dir name, place = dir ++ [name] ∧ d.node? dir = some .directory) :
    d'.Sound := by
  refine ⟨?_, fun q hq r hr hne => ?_⟩
  · rw [h.here]
    exact (h.sameTree.directory _).2 hd.here
  · rw [h.sameTree.directory]
    by_cases hqp : q = place
    · -- a proper beginning of the place is one of the directory it is in
      obtain ⟨dir, name, rfl, hdir⟩ := hparent
      subst hqp
      rcases List.prefix_concat_iff.1 hr with heq | hpre
      · exact (hne heq).elim
      · by_cases hrd : r = dir
        · exact hrd ▸ hdir
        · exact hd.above dir (by simp [hdir]) r hpre hrd
    · exact hd.above q (by rwa [h.others q hqp] at hq) r hr hne

end Alters

theorem alters_put {d : Disk} {place : Place} {node : Node} (hne : place ≠ [])
    (hwas : d.node? place ≠ some .directory) (hnode : node ≠ .directory) :
    Alters d (d.put place node) place where
  here := put_here d place _
  others q hq := by rw [node?_put d hne, if_neg hq]
  was := hwas
  now := by
    rw [node?_put d hne, if_pos rfl]
    simpa using hnode

/-- One disk is another with bytes added to the end of a file, which is made if
it was missing. -/
structure Grows (d d' : Disk) (place : Place) (bytes : Bytes) : Prop
    extends Alters d d' place where
  file : ∃ m, d'.node? place = some (.file (d.bytesAt place ++ bytes) m)

namespace Grows

variable {d d' d'' : Disk} {place : Place} {bytes bytes' : Bytes}

theorem bytesAt (h : Grows d d' place bytes) : d'.bytesAt place = d.bytesAt place ++ bytes := by
  obtain ⟨m, hm⟩ := h.file
  exact bytesAt_of_file hm

theorem trans (h : Grows d d' place bytes) (h' : Grows d' d'' place bytes') :
    Grows d d'' place (bytes ++ bytes') where
  toAlters := h.toAlters.trans h'.toAlters
  file := by
    obtain ⟨m, hm⟩ := h'.file
    exact ⟨m, by rw [hm, h.bytesAt, List.append_assoc]⟩

/-- A file that stands somewhere has grown by nothing. -/
theorem refl {c : Bytes} {m : Nanos} (h : d.node? place = some (.file c m)) :
    Grows d d place [] :=
  ⟨.refl (by simp [h]), ⟨m, by rw [List.append_nil, bytesAt_of_file h]; exact h⟩⟩

end Grows

theorem grows_put {d : Disk} {place : Place} (bytes : Bytes) (m : Nanos) (hne : place ≠ [])
    (hwas : d.node? place ≠ some .directory) :
    Grows d (d.put place (.file (d.bytesAt place ++ bytes) m)) place bytes :=
  ⟨alters_put hne hwas (by simp), ⟨m, by rw [node?_put d hne, if_pos rfl]⟩⟩

/-! ## Renamed files -/

/-- A disk after a file has moved to a place where nothing was. -/
structure Moves (d d' : Disk) (source target : Place) : Prop where
  here : d'.here = d.here
  was : ∃ node, d.node? source = some node ∧ node ≠ .directory
  free : d.node? target = none
  parent : ∃ dir name, target = dir ++ [name] ∧ d.node? dir = some .directory
  nodes : ∀ q, d'.node? q =
    if q = target then d.node? source else if q = source then none else d.node? q

namespace Moves

variable {d d' : Disk} {source target : Place}

theorem ne (h : Moves d d' source target) : source ≠ target := by
  rintro rfl
  obtain ⟨node, hnode, -⟩ := h.was
  simp [h.free] at hnode

theorem sameTree (h : Moves d d' source target) : SameTree d d' := by
  refine ⟨h.here, fun q => ?_⟩
  obtain ⟨node, hnode, hdir⟩ := h.was
  rw [h.nodes]
  split
  · next hq => simp [hq, hnode, hdir, h.free]
  · split
    · next hq => simp [hq, hnode, hdir]
    · rfl

theorem sound (h : Moves d d' source target) (hd : d.Sound) : d'.Sound := by
  refine ⟨?_, fun q hq r hr hne => ?_⟩
  · rw [h.here]
    exact (h.sameTree.directory _).2 hd.here
  · rw [h.sameTree.directory]
    rw [h.nodes] at hq
    split at hq
    · next hqt =>
      obtain ⟨dir, name, htarget, hdir⟩ := h.parent
      rw [hqt, htarget] at hr hne
      rcases List.prefix_concat_iff.1 hr with heq | hpre
      · exact (hne heq).elim
      · by_cases hrd : r = dir
        · exact hrd ▸ hdir
        · exact hd.above dir (by simp [hdir]) r hpre hrd
    · split at hq
      · cases hq
      · exact hd.above q hq r hr hne

theorem bytesAt_target (h : Moves d d' source target) : d'.bytesAt target = d.bytesAt source :=
  bytesAt_congr (by rw [h.nodes, if_pos rfl])

theorem bytesAt_source (h : Moves d d' source target) : d'.bytesAt source = [] :=
  bytesAt_of_none (by rw [h.nodes, if_neg h.ne, if_pos rfl])

end Moves

theorem isSome_node?_of_mem {d : Disk} {e : Place × Node} (he : e ∈ d.nodes) :
    (d.node? e.1).isSome := by
  by_cases hne : e.1 = []
  · simp [hne, node?_nil]
  · rw [node?_of_ne_nil d hne, List.lookup_isSome_iff]
    exact ⟨e, he, by simp⟩

end Disk

end LogPipeline
