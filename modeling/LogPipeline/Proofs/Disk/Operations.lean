import LogPipeline.Proofs.Disk.Tree

/-!
# What the operations of a world do to its disk

A file that is opened or written changes at its own place alone (`Alters`), also
when the operation fails. A write to a file adds all of its bytes or, when it
fails, the first of them (`append_grows`). A rename happens on the disk or not at
all (`rename_cases`).
-/

namespace LogPipeline

open Disk (Alters Grows)

namespace Disk

/-- Whether a path leads to a device, which keeps nothing of what is written. -/
def HasDevice (d : Disk) (p : Path) : Prop :=
  ∃ place takes, d.fileTarget p = .ok place ∧ d.node? place = some (.device takes)

/-- A place to which a path leads holds a file or nothing, unless it is a device. -/
theorem file_or_none {d : Disk} {p : Path} {place : Place} (ht : d.fileTarget p = .ok place)
    (hdev : ¬d.HasDevice p) : d.node? place = none ∨ ∃ c m, d.node? place = some (.file c m) := by
  cases hnode : d.node? place with
  | none => exact .inl rfl
  | some node =>
    cases node with
    | directory => exact ((fileTarget_eq_ok_iff.1 ht).2 hnode).elim
    | file c m => exact .inr ⟨c, m, rfl⟩
    | device takes => exact (hdev ⟨place, takes, ht, hnode⟩).elim

theorem not_hasDevice {d : Disk} {p : Path} {place : Place} (ht : d.fileTarget p = .ok place)
    (h : ∀ takes, d.node? place ≠ some (.device takes)) : ¬d.HasDevice p := by
  rintro ⟨q, takes, hq, hnode⟩
  rw [ht] at hq
  cases hq
  exact h takes hnode

/-- On an empty disk there is no device. -/
theorem not_hasDevice_empty (p : Path) : ¬HasDevice ⟨[], []⟩ p := by
  rintro ⟨place, takes, -, hnode⟩
  unfold node? at hnode
  split at hnode <;> cases hnode

end Disk

namespace World

variable {w w' : World} {p : Path} {place : Place}

/-! ## Opening -/

theorem openAppend_error {e : IoError} (h : w.openAppend p = (.error e, w')) :
    w'.disk = w.disk := by
  unfold openAppend at h
  split at h
  · cases h
    rfl
  · split at h
    · cases h
      rfl
    · split at h <;> cases h

/-- What is opened stands at the place of its path, and nothing else changes. -/
theorem openAppend_ok (h : w.openAppend p = (.ok place, w')) (hs : w.disk.Sound) :
    w.disk.fileTarget p = .ok place ∧ Alters w.disk w'.disk place := by
  unfold openAppend at h
  split at h
  · cases h
  · split at h
    · cases h
    · next q hq =>
      have hdir := (Disk.fileTarget_eq_ok_iff.1 hq).2
      split at h
      · cases h
        exact ⟨hq, .refl hdir⟩
      · cases h
        exact ⟨hq, Disk.alters_put (hs.fileTarget_ne_nil hq) hdir (by simp)⟩

/-- A file that is opened is there, and holds what it held. -/
theorem openAppend_grows (h : w.openAppend p = (.ok place, w')) (hs : w.disk.Sound)
    (hdev : ¬w.disk.HasDevice p) : Grows w.disk w'.disk place [] := by
  unfold openAppend at h
  split at h
  · cases h
  · split at h
    · cases h
    · next q hq =>
      split at h
      · next node hnode =>
        cases h
        obtain ⟨c, m, hfile⟩ := (Disk.file_or_none hq hdev).resolve_left (by simp [hnode])
        exact .refl hfile
      · next hnone =>
        cases h
        have hput := Disk.grows_put [] w.now (hs.fileTarget_ne_nil hq)
          (Disk.fileTarget_eq_ok_iff.1 hq).2
        rwa [Disk.bytesAt_of_none hnone] at hput

/-! ## Writing -/

theorem append_alters (w : World) (hne : place ≠ [])
    (hdir : w.disk.node? place ≠ some .directory) (bytes : Bytes) :
    Alters w.disk (w.append place bytes).2.disk place := by
  have hadd : ∀ b : Bytes, Alters w.disk (w.proceed.addBytes place b).disk place := fun b => by
    unfold addBytes
    split
    · exact Disk.alters_put hne hdir (by simp)
    · exact .refl hdir
  unfold append
  split
  · exact .refl hdir
  · split
    · exact .refl hdir
    · exact hadd _
    · split
      · exact .refl hdir
      · exact hadd _

/-- A write to a file adds all the bytes, or fails after some of them. -/
theorem append_grows (w : World) (hne : place ≠ []) {c : Bytes} {m : Nanos}
    (hfile : w.disk.node? place = some (.file c m)) (bytes : Bytes) :
    ((w.append place bytes).1 = .ok () ∧ Grows w.disk (w.append place bytes).2.disk place bytes) ∨
      ∃ e torn, (w.append place bytes).1 = .error e ∧ torn <+: bytes ∧
        Grows w.disk (w.append place bytes).2.disk place torn := by
  have hadd : ∀ b : Bytes, Grows w.disk (w.proceed.addBytes place b).disk place b := fun b => by
    have hput := Disk.grows_put b w.proceed.now hne
      (show w.disk.node? place ≠ some .directory by simp [hfile])
    rw [Disk.bytesAt_of_file hfile] at hput
    simpa [addBytes, proceed, tick, hfile] using hput
  unfold append
  split
  · next hnil => exact .inl ⟨rfl, hnil ▸ .refl hfile⟩
  · split
    · exact .inr ⟨_, [], rfl, List.nil_prefix, .refl hfile⟩
    · next n _ => exact .inr ⟨_, bytes.take n, rfl, List.take_prefix n bytes, hadd _⟩
    · rw [if_neg (by simp [hfile])]
      exact .inl ⟨rfl, hadd bytes⟩

theorem grows_of_append_ok (hne : place ≠ []) {c : Bytes} {m : Nanos}
    (hfile : w.disk.node? place = some (.file c m)) {bytes : Bytes}
    (h : w.append place bytes = (.ok (), w')) : Grows w.disk w'.disk place bytes := by
  rcases w.append_grows hne hfile bytes with ⟨-, hgrows⟩ | ⟨e, torn, herr, -⟩
  · rwa [h] at hgrows
  · rw [h] at herr
    cases herr

/-! ## Sizes and renames -/

theorem disk_of_size {r : Except IoError Nat} (h : w.size place = (r, w')) :
    w'.disk = w.disk := by
  unfold size at h
  split at h
  · cases h
    rfl
  · split at h <;> cases h <;> rfl

/-- A rename happens on the disk, or changes nothing there. -/
theorem rename_cases (w : World) (source target : Path) :
    ((w.rename source target).1 = .ok () ∧
        w.disk.rename source target = .ok (w.rename source target).2.disk) ∨
      ∃ e, (w.rename source target).1 = .error e ∧ (w.rename source target).2.disk = w.disk := by
  unfold rename
  split
  · exact .inr ⟨_, rfl, rfl⟩
  · split
    · next disk hdisk => exact .inl ⟨rfl, hdisk⟩
    · exact .inr ⟨_, rfl, rfl⟩

end World

end LogPipeline
