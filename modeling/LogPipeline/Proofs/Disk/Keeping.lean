import LogPipeline.Disk.World
import LogPipeline.Proofs.Disk.Renaming

/-!
# Bytes that stay

A disk keeps the bytes of another when every file is still there with all it held, at its
place or where it has moved, whatever was added to its end (`Keeps`). Opening a file and
writing to it keep all bytes, also when they fail. A rename keeps them exactly if what
stood at the target is the beginning of what takes its place (`Displaces.keeps_iff`).
-/

namespace LogPipeline

namespace Disk

/-- The bytes at each place of a disk are the first ones on another at the place it has
moved to. -/
def Keeps (move : Place → Place) (d d' : Disk) : Prop :=
  ∀ q, d.bytesAt q <+: d'.bytesAt (move q)

variable {d d' d'' : Disk} {move move' : Place → Place} {s t place : Place}

theorem Keeps.refl (d : Disk) : Keeps id d d := fun _ => List.prefix_refl _

theorem Keeps.trans (h : Keeps move d d') (h' : Keeps move' d' d'') :
    Keeps (move' ∘ move) d d'' := fun q => (h q).trans (h' (move q))

theorem keeps_put {bytes : Bytes} (m : Nanos) (hne : place ≠ [])
    (h : d.bytesAt place <+: bytes) : Keeps id d (d.put place (.file bytes m)) := by
  intro q
  have hnode := node?_put d hne (.file bytes m) q
  by_cases hq : q = place
  · rw [if_pos hq] at hnode
    rw [id, bytesAt_of_file hnode, hq]
    exact h
  · rw [if_neg hq] at hnode
    simpa only [id, bytesAt_congr hnode] using List.prefix_refl _

theorem movedPlace_same (s q : Place) : movedPlace s s q = q := by
  by_cases h : s <+: q
  · obtain ⟨rest, rfl⟩ := h
    exact movedPlace_append s s rest
  · exact movedPlace_outside s h

/-- A rename keeps all bytes unless it puts something in the place of a file that it does
not begin with. -/
theorem Displaces.keeps_iff (h : Displaces d d' s t) :
    Keeps (movedPlace s t) d d' ↔ d.bytesAt t <+: d.bytesAt s := by
  have htarget : d'.bytesAt (movedPlace s t t) = d.bytesAt s := by
    rw [movedPlace_outside t h.apart]
    exact bytesAt_congr h.node?_target
  refine ⟨fun hkeeps => htarget ▸ hkeeps t, fun hover q => ?_⟩
  by_cases hqt : q = t
  · rw [hqt, htarget]
    exact hover
  · by_cases hq : (d.node? q).isSome
    · simpa only [bytesAt_congr (h.node?_moved hq hqt)] using List.prefix_refl _
    · rw [bytesAt_of_none (Option.not_isSome_iff_eq_none.1 hq)]
      exact List.nil_prefix

end Disk

open Disk (Keeps)

namespace World

theorem keeps_openAppend (w : World) (p : Path) : Keeps id w.disk (w.openAppend p).2.disk := by
  unfold openAppend
  split
  · exact .refl _
  · split
    · exact .refl _
    · next place ht =>
      split
      · exact .refl _
      · next hnone =>
        refine Disk.keeps_put _ ?_ (by simp [Disk.bytesAt_of_none hnone])
        rintro rfl
        simp [Disk.node?_nil] at hnone

theorem keeps_append (w : World) (place : Place) (bytes : Bytes) :
    Keeps id w.disk (w.append place bytes).2.disk := by
  have hadd : ∀ b : Bytes, Keeps id w.disk (w.proceed.addBytes place b).disk := fun b => by
    unfold addBytes
    split
    · next contents m hfile =>
      refine Disk.keeps_put (d := w.proceed.disk) _ ?_ ?_
      · rintro rfl
        simp [Disk.node?_nil] at hfile
      · rw [Disk.bytesAt_of_file hfile]
        exact List.prefix_append contents b
    · exact .refl _
  unfold append
  split
  · exact .refl _
  · split
    · exact .refl _
    · exact hadd _
    · split
      · exact .refl _
      · exact hadd _

end World

end LogPipeline
