import LogPipeline.Retention
import LogPipeline.Proofs.Disk.Renaming
import Mathlib.Algebra.Group.Int.Defs

/-!
# Retention by age

An archive is removed if it was last changed before a limit, and if its removal goes well
(`removeExpired_spec`). The limit should be the current time less the days of the retention
(`exactCutoff`), and it is as long as the clock can show that time (`cutoff_of_onClock`). No
file is old enough for a longer retention, yet then the limit is the beginning of 1970
(`cutoff_of_not_onClock`), so that archives changed before it are removed: files are removed
by their age exactly if the limit is on the clock or they are no older than the limit that
stands for it (`clean_removes_by_age`).
-/

namespace LogPipeline

/-- Whether a clock that counts seconds in a signed word can show a time. -/
def Nanos.OnClock (t : Nanos) : Prop := -2 ^ 63 ≤ t.seconds ∧ t.seconds < 2 ^ 63

instance (t : Nanos) : Decidable t.OnClock := inferInstanceAs (Decidable (_ ∧ _))

/-! ## Removing a file -/

namespace Disk

variable {d : Disk} {place q : Place} {contents : Bytes} {modified : Nanos}

theorem lookup_erase_below (d : Disk) (h : place <+: q) :
    (d.erase place).nodes.lookup q = none := by
  refine List.lookup_eq_none_iff.2 fun e he => ?_
  have hkept := (List.mem_filter.1 he).2
  rw [bne_iff_ne]
  rintro rfl
  simp [← List.isPrefixOf_iff_prefix] at h
  simp [h] at hkept

/-- Nothing else goes with a file that is removed. -/
theorem Sound.node?_erase (h : d.Sound) (hfile : d.node? place = some (.file contents modified))
    (q : Place) : (d.erase place).node? q = if q = place then none else d.node? q := by
  have hne : place ≠ [] := by
    rintro rfl
    simp [node?_nil] at hfile
  by_cases hpre : place <+: q
  · have hnil : q ≠ [] := by
      rintro rfl
      exact hne (List.prefix_nil.1 hpre)
    rw [node?_of_ne_nil _ hnil, lookup_erase_below d hpre]
    split
    · rfl
    · next hqp =>
      exact (Option.not_isSome_iff_eq_none.1 fun hq =>
        hqp (h.eq_of_prefix hq (by simp [hfile]) hpre).symm).symm
  · rw [if_neg fun hqp : q = place => hpre (hqp ▸ List.prefix_refl q)]
    unfold node?
    rw [lookup_erase d hpre]

theorem Sound.erase (h : d.Sound) (hfile : d.node? place = some (.file contents modified)) :
    (d.erase place).Sound := by
  have hdir : ∀ r, d.node? r = some .directory → (d.erase place).node? r = some .directory :=
    fun r hr => by
      rw [h.node?_erase hfile, if_neg, hr]
      rintro rfl
      cases hfile.symm.trans hr
  refine ⟨hdir _ h.here, fun q hq r hr hne => hdir r (h.above q ?_ r hr hne)⟩
  rw [h.node?_erase hfile] at hq
  split at hq
  · cases hq
  · exact hq

end Disk

namespace Retention

/-! ## The limit -/

/-- The time that many days before now, however far back that is. -/
def exactCutoff (now : Nanos) (days : UInt64) : Nanos :=
  now - days.toNat * 86400 * 1000000000

section Cutoff

variable {now modified : Nanos} {days fewer : UInt64}

theorem seconds_exactCutoff (now : Nanos) (days : UInt64) :
    (exactCutoff now days).seconds = now.seconds - days.toNat * 86400 := by
  unfold exactCutoff Nanos.seconds
  dsimp only [Nanos, Seconds]
  omega

theorem periodSeconds_eq (days : UInt64) :
    periodSeconds days = min (days.toNat * 86400) 18446744073709551615 := rfl

theorem cutoff_eq (now : Nanos) (days : UInt64) :
    cutoff now days = if now.seconds - periodSeconds days < -2 ^ 63 then 0
      else now - periodSeconds days * 1000000000 := rfl

/-- A limit that the clock can show is the exact one. -/
theorem cutoff_of_onClock (hnow : now.OnClock) (h : (exactCutoff now days).OnClock) :
    cutoff now days = exactCutoff now days := by
  have hexact := seconds_exactCutoff now days
  have hperiod := periodSeconds_eq days
  unfold Nanos.OnClock at hnow h
  dsimp only [Nanos, Seconds] at *
  have hsame : periodSeconds days = days.toNat * 86400 := by omega
  rw [cutoff_eq, if_neg (by dsimp only [Nanos, Seconds]; omega), hsame, exactCutoff]
  dsimp only [Nanos]
  omega

/-- A limit that the clock cannot show is before every time that it can. -/
theorem not_lt_exactCutoff (hnow : now.OnClock) (h : ¬(exactCutoff now days).OnClock)
    (hmodified : modified.OnClock) : ¬modified < exactCutoff now days := by
  have hexact := seconds_exactCutoff now days
  unfold Nanos.OnClock at hnow h hmodified
  unfold Nanos.seconds at hexact hnow h hmodified
  dsimp only [Nanos, Seconds] at *
  omega

/-- The limit that stands for one that the clock cannot show, unless this is its last
second. -/
theorem cutoff_of_not_onClock (hnow : now.OnClock) (hlast : now.seconds ≠ 2 ^ 63 - 1)
    (h : ¬(exactCutoff now days).OnClock) : cutoff now days = 0 := by
  have hexact := seconds_exactCutoff now days
  have hperiod := periodSeconds_eq days
  unfold Nanos.OnClock at hnow h
  dsimp only [Nanos, Seconds] at *
  rw [cutoff_eq, if_pos (by dsimp only [Nanos, Seconds]; omega)]

/-- A time before the limit is before the exact one exactly if this is on the clock; no
other time is taken for older than it is. -/
theorem lt_cutoff_iff (hnow : now.OnClock) (hmodified : modified.OnClock) :
    (modified < cutoff now days ↔ modified < exactCutoff now days) ↔
      (exactCutoff now days).OnClock ∨ cutoff now days ≤ modified := by
  by_cases h : (exactCutoff now days).OnClock
  · simp [cutoff_of_onClock hnow h, h]
  · simp [not_lt_exactCutoff hnow h hmodified, h]

/-- Fewer days make for a later limit, if the earlier one is on the clock. -/
theorem cutoff_le_of_le (hnow : now.OnClock) (hle : fewer ≤ days)
    (h : (exactCutoff now days).OnClock) : cutoff now days ≤ cutoff now fewer := by
  have hdays : fewer.toNat ≤ days.toNat := UInt64.le_iff_toNat_le.1 hle
  have hless : (exactCutoff now fewer).OnClock := by
    have hexact := seconds_exactCutoff now days
    have hexact' := seconds_exactCutoff now fewer
    unfold Nanos.OnClock at *
    dsimp only [Nanos, Seconds] at *
    omega
  rw [cutoff_of_onClock hnow h, cutoff_of_onClock hnow hless]
  unfold exactCutoff
  dsimp only [Nanos]
  omega

end Cutoff

/-! ## Removing what has expired -/

section Removing

variable {s : Series} {limit : Nanos} {places : List Place} {w : World}

/-- The places among some whose removal goes well, if the first one meets the outcome of a
given number. -/
def granted (outcomes : Nat → Outcome) (n : Nat) : List Place → List Place
  | [] => []
  | place :: rest =>
    if outcomes n = .regular then place :: granted outcomes (n + 1) rest
    else granted outcomes (n + 1) rest

theorem granted_sublist (outcomes : Nat → Outcome) (n : Nat) (places : List Place) :
    (granted outcomes n places).Sublist places := by
  induction places generalizing n with
  | nil => exact .slnil
  | cons place rest ih =>
    rw [granted]
    split
    · exact (ih _).cons_cons place
    · exact (ih _).cons place

theorem granted_of_regular {outcomes : Nat → Outcome} (h : ∀ n, outcomes n = .regular) (n : Nat)
    (places : List Place) : granted outcomes n places = places := by
  induction places generalizing n with
  | nil => rfl
  | cons place rest ih => rw [granted, if_pos (h n), ih]

theorem isExpired_iff {d : Disk} {place : Place} :
    isExpired s limit d place = true ↔ s.holds (place.getLast?.getD "").toList = true ∧
      ∃ contents modified, d.node? place = some (.file contents modified) ∧ modified < limit := by
  unfold isExpired modified?
  cases hnode : d.node? place with
  | none => simp
  | some node => cases node <;> simp [and_assoc]

/-- Whether a place has expired depends on what is there alone. -/
theorem isExpired_congr {d d' : Disk} {place : Place} (h : d'.node? place = d.node? place) :
    isExpired s limit d' place = isExpired s limit d place := by
  unfold isExpired modified?
  rw [h]

/-- A file is removed, or nothing happens, as the outcome says. -/
theorem removeFile_cases {place : Place} {contents : Bytes} {modified : Nanos}
    (hfile : w.disk.node? place = some (.file contents modified)) :
    (w.outcomes w.operations = .regular ∧
        w.removeFile place = (.ok (), { w.proceed with disk := w.disk.erase place })) ∨
      w.outcomes w.operations ≠ .regular ∧ w.removeFile place = (.error outsideFailure, w.proceed) := by
  unfold World.removeFile
  split
  · next h => exact .inr ⟨h, rfl⟩
  · next h =>
    rw [hfile]
    exact .inl ⟨Decidable.not_not.1 h, rfl⟩

/-- Of some places, those that have expired are removed, as far as their removal goes well,
and nothing else. -/
theorem removeExpired_spec (s : Series) (limit : Nanos) (hs : w.disk.Sound)
    (hplaces : places.Nodup) :
    let gone := granted w.outcomes w.operations (places.filter (isExpired s limit w.disk))
    (removeExpired s limit places w).1 = gone.length ∧
      ∀ q, (removeExpired s limit places w).2.disk.node? q =
        if q ∈ gone then none else w.disk.node? q := by
  induction places generalizing w with
  | nil => simp [removeExpired, granted]
  | cons place rest ih =>
    obtain ⟨hplace, hrest⟩ := List.nodup_cons.1 hplaces
    rw [removeExpired]
    by_cases hexpired : isExpired s limit w.disk place
    · obtain ⟨-, contents, modified, hfile, -⟩ := isExpired_iff.1 hexpired
      rw [if_pos hexpired, List.filter_cons_of_pos hexpired]
      rcases removeFile_cases hfile with ⟨hok, hremove⟩ | ⟨herr, hremove⟩
      · have hsame : rest.filter (isExpired s limit (w.disk.erase place)) =
            rest.filter (isExpired s limit w.disk) := List.filter_congr fun q hq => by
          refine isExpired_congr ?_
          rw [hs.node?_erase hfile, if_neg fun heq : q = place => hplace (heq ▸ hq)]
        have hrun := ih (w := { w.proceed with disk := w.disk.erase place }) (hs.erase hfile) hrest
        rw [hremove, granted, if_pos hok]
        simp only [hsame] at hrun ⊢
        obtain ⟨hcount, hnode⟩ := hrun
        refine ⟨congrArg (· + 1) hcount, fun q => ?_⟩
        rw [hnode, hs.node?_erase hfile]
        by_cases hq : q = place <;> simp [hq, World.proceed]
      · rw [hremove, granted, if_neg herr]
        exact ih (w := w.proceed) hs hrest
    · rw [if_neg hexpired, List.filter_cons_of_neg hexpired]
      exact ih hs hrest

end Removing

/-! ## Cleaning a directory -/

/-- The directory of a dump file, listed without failure: it has one entry for each of its
places. -/
structure Listing (dump : Path) (w : World) (dir : Place) : Prop where
  sound : w.disk.Sound
  found : w.disk.directoryAt dump.directory = .ok dir
  regular : w.outcome = .regular
  once : (w.disk.children dir).Nodup
  clock : w.now.OnClock

/-- An archive of a dump file in a directory, with the time when it was last changed. -/
structure Archived (dump : Path) (d : Disk) (dir place : Place) (modified : Nanos) : Prop where
  listed : place ∈ d.children dir
  named : (Series.ofPath dump).holds (place.getLast?.getD "").toList = true
  file : ∃ contents, d.node? place = some (.file contents modified)

/-- The places in a directory that are removed if every removal goes well. -/
def expired (dump : Path) (days : UInt64) (w : World) (dir : Place) : List Place :=
  (w.disk.children dir).filter (isExpired (.ofPath dump) (cutoff w.now days) w.disk)

section Clean

variable {dump : Path} {days : UInt64} {w : World} {dir place : Place} {modified : Nanos}

theorem mem_expired_iff : place ∈ expired dump days w dir ↔
    ∃ modified, Archived dump w.disk dir place modified ∧ modified < cutoff w.now days := by
  rw [expired, List.mem_filter, isExpired_iff]
  constructor
  · rintro ⟨hlisted, hnamed, contents, modified, hfile, hold⟩
    exact ⟨modified, ⟨hlisted, hnamed, contents, hfile⟩, hold⟩
  · rintro ⟨modified, ⟨hlisted, hnamed, contents, hfile⟩, hold⟩
    exact ⟨hlisted, hnamed, contents, modified, hfile, hold⟩

theorem Archived.mem_expired_iff (h : Archived dump w.disk dir place modified) :
    place ∈ expired dump days w dir ↔ modified < cutoff w.now days := by
  rw [Retention.mem_expired_iff]
  refine ⟨?_, fun hold => ⟨modified, h, hold⟩⟩
  rintro ⟨modified', h', hold⟩
  obtain ⟨contents, hfile⟩ := h.file
  obtain ⟨contents', hfile'⟩ := h'.file
  cases hfile.symm.trans hfile'
  exact hold

/-- In a directory that is listed, every place is looked at once. -/
theorem Listing.clean_eq (h : Listing dump w dir) (days : UInt64) :
    clean dump days w =
      let r := removeExpired (.ofPath dump) (cutoff w.now days) (w.disk.children dir)
        w.tick.proceed
      (.ok r.1, r.2) := by
  have hlist : w.tick.list dump.directory = (.ok (w.disk.children dir), w.tick.proceed) := by
    have hfound : w.tick.disk.directoryAt dump.directory = .ok dir := h.found
    have hregular : w.tick.outcome = .regular := h.regular
    rw [World.list, if_neg (not_not_intro hregular), hfound]
    rfl
  have hhas : w.disk.has dump.directory = true := by
    have hfound := h.found
    unfold Disk.directoryAt at hfound
    unfold Disk.has
    split at hfound
    · cases hfound
    · next t ht =>
      split at hfound
      · next hdir => simp only [ht, hdir]
      · cases hfound
      · cases hfound
  simp only [clean, hhas, hlist]
  rfl

/-- Archives that were last changed before the limit are removed, as far as their removal
goes well, and counted; nothing else changes. This removes by age, that is, by the time
that is exactly so many days ago, if and only if the clock can show that time or the archive
was not changed before the limit that stands for it, which is the beginning of 1970. With
a limit on the clock, whatever goes goes also after fewer days. -/
theorem clean_removes_by_age (h : Listing dump w dir) (days : UInt64) :
    let doomed := expired dump days w dir
    let gone := granted w.outcomes (w.operations + 1) doomed
    let exact := exactCutoff w.now days
    (clean dump days w).1 = .ok gone.length ∧
      (∀ q, (clean dump days w).2.disk.node? q = if q ∈ gone then none else w.disk.node? q) ∧
      gone.Sublist doomed ∧ ((∀ n, w.outcomes n = .regular) → gone = doomed) ∧
      (∀ place ∈ doomed, ∃ modified, Archived dump w.disk dir place modified) ∧
      (∀ place modified, Archived dump w.disk dir place modified → modified.OnClock →
        ((place ∈ doomed ↔ modified < exact) ↔
          exact.OnClock ∨ cutoff w.now days ≤ modified)) ∧
      (¬exact.OnClock → w.now.seconds ≠ 2 ^ 63 - 1 → cutoff w.now days = 0) ∧
      ∀ fewer ≤ days, exact.OnClock → doomed ⊆ expired dump fewer w dir := by
  intro doomed gone exact
  obtain ⟨hcount, hnode⟩ := removeExpired_spec (.ofPath dump) (cutoff w.now days)
    (w := w.tick.proceed) h.sound h.once
  rw [h.clean_eq days]
  refine ⟨congrArg Except.ok hcount, hnode, granted_sublist .., (granted_of_regular · ..),
    fun place hplace => ?_, fun place modified hfile hm => ?_,
    fun hoff hlast => cutoff_of_not_onClock h.clock hlast hoff,
    fun fewer hle hon place hplace => ?_⟩
  · obtain ⟨modified, hfile, -⟩ := mem_expired_iff.1 hplace
    exact ⟨modified, hfile⟩
  · rw [hfile.mem_expired_iff]
    exact lt_cutoff_iff h.clock hm
  · obtain ⟨modified, hfile, hold⟩ := mem_expired_iff.1 hplace
    exact hfile.mem_expired_iff.2 (Int.lt_of_lt_of_le hold (cutoff_le_of_le h.clock hle hon))

end Clean

/-- A directory with an archive from 1963, seen in 2023. -/
def attic : World :=
  .calm (Disk.put ⟨[], []⟩ ["app_631225_101320_00001.log"]
    (.file (Text.encode "x") (-190000000 * 1000000000))) fun _ => 1700000000 * 1000000000

theorem attic_listing : Listing ⟨"app.log"⟩ attic [] where
  sound := (Disk.alters_put (by simp) (by decide +kernel) (by simp)).sound Disk.sound_empty
    ⟨[], _, rfl, Disk.node?_nil _⟩
  found := by rfl
  regular := rfl
  once := by decide +kernel
  clock := by decide +kernel

/-- After a week the archive is removed by its age. -/
theorem clean_removes_by_age_of_attic :
    Listing ⟨"app.log"⟩ attic [] ∧ (exactCutoff attic.now 7).OnClock ∧
      (clean ⟨"app.log"⟩ 7 attic).1 = .ok 1 ∧
      (clean ⟨"app.log"⟩ 7 attic).2.disk.node? ["app_631225_101320_00001.log"] = none := by
  obtain ⟨hcount, hnode, -⟩ := clean_removes_by_age attic_listing 7
  refine ⟨attic_listing, by decide +kernel, ?_, ?_⟩
  · exact hcount.trans (congrArg Except.ok (by decide +kernel))
  · rw [hnode]
    decide +kernel

/-- No file is old enough for the longest retention, and forty thousand days keep the archive;
yet the longest retention removes it. -/
theorem longest_retention_removes_archive :
    let place := ["app_631225_101320_00001.log"]
    let modified : Nanos := -190000000 * 1000000000
    Listing ⟨"app.log"⟩ attic [] ∧ modified.OnClock ∧
      Archived ⟨"app.log"⟩ attic.disk [] place modified ∧
      ¬modified < exactCutoff attic.now 18446744073709551615 ∧
      ¬(exactCutoff attic.now 18446744073709551615).OnClock ∧
      (clean ⟨"app.log"⟩ 18446744073709551615 attic).1 = .ok 1 ∧
      (clean ⟨"app.log"⟩ 18446744073709551615 attic).2.disk.node? place = none ∧
      (clean ⟨"app.log"⟩ 40000 attic).1 = .ok 0 ∧
      (clean ⟨"app.log"⟩ 40000 attic).2.disk.node? place = attic.disk.node? place := by
  refine ⟨attic_listing, by decide +kernel, ⟨by decide +kernel, by decide +kernel,
    Text.encode "x", by decide +kernel⟩, by decide +kernel, by decide +kernel, ?_⟩
  rw [attic_listing.clean_eq, attic_listing.clean_eq]
  exact ⟨congrArg Except.ok (by decide +kernel), by decide +kernel,
    congrArg Except.ok (by decide +kernel), by decide +kernel⟩

end Retention

end LogPipeline
