import LogPipeline.Dump.Writer

/-!
# Where the entries of a dump go

Entries are written in batches of a hundred, and a batch is written or not as a
whole, so that what has been written is always a beginning of the entries whose
length is a multiple of a hundred or all of them (`writeEntries_counts`). What
is left goes to one other place as a whole (`dump_counts`). All of this holds
whatever the disk is and however its operations go.
-/

namespace LogPipeline

/-! ## Batches -/

section Chunks

variable {α : Type} {n : Nat}

theorem chunks_nil : chunks n ([] : List α) = [] := by
  rw [chunks, dif_pos (.inl rfl)]

theorem chunks_of_ne_nil (hn : 0 < n) {xs : List α} (h : xs ≠ []) :
    chunks n xs = xs.take n :: chunks n (xs.drop n) := by
  rw [chunks, dif_neg (not_or.2 ⟨h, Nat.ne_of_gt hn⟩)]

/-- Cutting loses nothing. -/
theorem flatten_chunks (hn : 0 < n) (xs : List α) : (chunks n xs).flatten = xs := by
  fun_induction chunks n xs with
  | case1 xs h =>
    obtain rfl := h.resolve_right (Nat.ne_of_gt hn)
    rfl
  | case2 xs h ih => rw [List.flatten_cons, ih, List.take_append_drop]

/-- The first parts of a cut list are a beginning of it, the others cut the rest
of it, and unless none are left all of the first have their full length. -/
theorem chunks_eq_append (hn : 0 < n) {xs : List α} {done rest : List (List α)}
    (h : chunks n xs = done ++ rest) :
    done.flatten = xs.take done.flatten.length ∧
      rest = chunks n (xs.drop done.flatten.length) ∧
      (rest = [] ∨ done.flatten.length = n * done.length) := by
  induction done generalizing xs with
  | nil => exact ⟨by simp, by simpa using h.symm, .inr (by simp)⟩
  | cons batch done ih =>
    have hxs : xs ≠ [] := by
      rintro rfl
      rw [chunks_nil] at h
      cases h
    rw [chunks_of_ne_nil hn hxs, List.cons_append, List.cons.injEq] at h
    obtain ⟨rfl, h⟩ := h
    obtain ⟨htake, hdrop, hfull⟩ := ih h
    have hlen : (xs.take n).length = n ∨ xs.drop n = [] := by
      rcases Nat.le_total n xs.length with hle | hle
      · exact .inl (by simp [hle])
      · exact .inr (List.drop_eq_nil_of_le hle)
    refine ⟨?_, ?_, ?_⟩
    · rcases hlen with hlen | hnil
      · rw [List.flatten_cons, List.length_append, hlen, List.take_add, ← htake]
      · simp only [hnil, chunks_nil] at h
        obtain ⟨rfl, rfl⟩ := List.append_eq_nil_iff.1 h.symm
        simp
    · rcases hlen with hlen | hnil
      · rw [List.flatten_cons, List.length_append, hlen, ← List.drop_drop, ← hdrop]
      · simp only [hnil, chunks_nil] at h
        obtain ⟨rfl, rfl⟩ := List.append_eq_nil_iff.1 h.symm
        have : xs.length ≤ n := List.drop_eq_nil_iff.1 hnil
        simp [List.take_of_length_le this, chunks_nil]
    · rcases hlen with hlen | hnil
      · refine hfull.imp_right fun hd => ?_
        rw [List.flatten_cons, List.length_append, hlen, hd, List.length_cons, Nat.mul_succ,
          Nat.add_comm]
      · simp only [hnil, chunks_nil] at h
        exact .inl (List.append_eq_nil_iff.1 h.symm).2

end Chunks

theorem batchSize_pos : 0 < batchSize := by decide

namespace DumpWriter

/-! ## Written entries -/

/-- The batches one file takes are the first ones: all of them when it ends
complete, at least one when it is full, and not all when it fails. -/
theorem writeBatches_split (d : DumpWriter) (place : Place) (batches : List (List Entry))
    (w : World) :
    ∃ done rest, batches = done ++ rest ∧
      (d.writeBatches place batches w).1.written = done.flatten.length ∧
      ((d.writeBatches place batches w).1.ended = .complete → rest = []) ∧
      ((d.writeBatches place batches w).1.ended = .full → done ≠ []) ∧
      (∀ e, (d.writeBatches place batches w).1.ended = .failed e → rest ≠ []) := by
  fun_induction DumpWriter.writeBatches d place batches w with
  | case1 w => exact ⟨[], [], rfl, rfl, fun _ => rfl, nofun, nofun⟩
  | case2 batch rest w e w' _ => exact ⟨[], batch :: rest, rfl, rfl, nofun, nofun, fun _ _ => by simp⟩
  | case3 batch rest w w' _ size w'' _ hfull =>
    exact ⟨[batch], rest, rfl, by simp, nofun, by simp, nofun⟩
  | case4 batch rest w w' _ size w'' _ hfull run w''' hrun ih =>
    rw [hrun] at ih
    obtain ⟨done, rest', rfl, hwritten, hcomplete, hfull', hfailed⟩ := ih
    exact ⟨batch :: done, rest', rfl, by simp_all, hcomplete, by simp, hfailed⟩
  | case5 batch rest w w' _ e w'' _ run w''' hrun ih =>
    rw [hrun] at ih
    obtain ⟨done, rest', rfl, hwritten, hcomplete, hfull', hfailed⟩ := ih
    exact ⟨batch :: done, rest', rfl, by simp_all, hcomplete, by simp, hfailed⟩

/-- The batches that one file takes of some entries. -/
theorem writeFile_split (d : DumpWriter) (entries : List Entry) (w : World) :
    ∃ done rest, chunks batchSize entries = done ++ rest ∧
      (d.writeFile entries w).1.written = done.flatten.length ∧
      ((d.writeFile entries w).1.ended = .complete → rest = []) ∧
      ((d.writeFile entries w).1.ended = .full → done ≠ []) ∧
      (∀ e, (d.writeFile entries w).1.ended = .failed e → entries ≠ [] → rest ≠ []) := by
  unfold writeFile
  split
  · refine ⟨[], _, rfl, rfl, nofun, nofun, fun _ _ hne => ?_⟩
    rw [chunks_of_ne_nil batchSize_pos hne]
    exact List.cons_ne_nil _ _
  · next place w' _ =>
    obtain ⟨done, rest, hsplit, hwritten, hcomplete, hfull, hfailed⟩ :=
      d.writeBatches_split place (chunks batchSize entries) w'
    exact ⟨done, rest, hsplit, hwritten, hcomplete, hfull, fun e h _ => hfailed e h⟩

/-- How many entries one file takes. -/
structure FileCounts (entries : List Entry) (run : FileRun) : Prop where
  le : run.written ≤ entries.length
  whole : run.written = entries.length ∨ batchSize ∣ run.written
  complete : run.ended = .complete → run.written = entries.length
  full : run.ended = .full → entries ≠ [] → 0 < run.written
  failed : ∀ e, run.ended = .failed e → entries ≠ [] → run.written < entries.length

theorem writeFile_counts (d : DumpWriter) (entries : List Entry) (w : World) :
    FileCounts entries (d.writeFile entries w).1 := by
  obtain ⟨done, rest, hsplit, hwritten, hcomplete, hfull, hfailed⟩ := d.writeFile_split entries w
  obtain ⟨htake, hrest, hwhole⟩ := chunks_eq_append batchSize_pos hsplit
  have hle : done.flatten.length ≤ entries.length := by
    rw [htake]
    exact List.length_take_le' _ _
  have hall : rest = [] → done.flatten.length = entries.length := by
    rintro rfl
    rw [List.append_nil] at hsplit
    rw [← hsplit, flatten_chunks batchSize_pos]
  refine ⟨hwritten ▸ hle, ?_, fun h => hwritten.trans (hall (hcomplete h)), fun h hne => ?_,
    fun e h hne => ?_⟩
  · rw [hwritten]
    rcases hwhole with hnil | hmul
    · exact .inl (hall hnil)
    · exact .inr ⟨_, hmul⟩
  · obtain ⟨batch, done, rfl⟩ := List.exists_cons_of_ne_nil (hfull h)
    rw [chunks_of_ne_nil batchSize_pos hne, List.cons_append, List.cons.injEq] at hsplit
    obtain ⟨rfl, -⟩ := hsplit
    have hpos : 0 < (entries.take batchSize).length := by
      have := List.length_pos_iff.2 hne
      have := batchSize_pos
      rw [List.length_take]
      omega
    rw [hwritten, List.flatten_cons, List.length_append]
    omega
  · rw [hwritten]
    refine Nat.lt_of_le_of_ne hle fun heq => hfailed e h hne ?_
    rw [hrest, heq, List.drop_length, chunks_nil]

/-- How many entries the dump file and its archives take. -/
structure RunCounts (entries : List Entry) (run : DumpRun) : Prop where
  le : run.written ≤ entries.length
  whole : run.written = entries.length ∨ batchSize ∣ run.written
  written_of_none : run.failure = none → run.written = entries.length
  lt_of_some : ∀ e, run.failure = some e → entries ≠ [] → run.written < entries.length

/-- Entries are written up to a multiple of a batch, or all of them, and all of
them just when nothing fails. -/
theorem writeEntries_counts (d : DumpWriter) (entries : List Entry) (w : World) :
    RunCounts entries (d.writeEntries entries w).1 := by
  fun_induction DumpWriter.writeEntries d entries w with
  | case1 d entries w e written notices w' hfile =>
    have h := d.writeFile_counts entries w
    rw [hfile] at h
    exact ⟨h.le, h.whole, nofun, fun _ _ => h.failed e rfl⟩
  | case2 d entries w written notices w' hfile =>
    have h := d.writeFile_counts entries w
    rw [hfile] at h
    exact ⟨h.le, h.whole, fun _ => h.complete rfl, nofun⟩
  | case3 d entries w written notices w' hfile made more d' w'' harchive rest hrest run d'' w''' hrun ih =>
    have h := d.writeFile_counts entries w
    rw [hfile] at h
    rw [hrun] at ih
    have hlen : rest.length = entries.length - written := List.length_drop
    have hle : written ≤ entries.length := h.le
    have hdvd : batchSize ∣ written := by
      refine h.whole.resolve_left fun heq => hrest.1 ?_
      exact List.length_eq_zero_iff.1 (by simp only at heq; omega)
    refine ⟨?_, ?_, fun hf => ?_, fun e hf _ => ?_⟩
    · have := ih.le
      simp only at this ⊢
      omega
    · rcases ih.whole with heq | hd
      · simp only at heq ⊢
        exact .inl (by omega)
      · exact .inr (Nat.dvd_add hdvd hd)
    · have := ih.written_of_none hf
      simp only at this ⊢
      omega
    · have := ih.lt_of_some e hf hrest.1
      simp only at this ⊢
      omega
  | case4 d entries w written notices w' hfile made more d' w'' harchive rest hrest =>
    have h := d.writeFile_counts entries w
    rw [hfile] at h
    refine ⟨h.le, h.whole, fun _ => ?_, nofun⟩
    -- a full file has taken some entries, so that none are left
    have hle : written ≤ entries.length := h.le
    have hlen : rest.length = entries.length - written := List.length_drop
    by_cases hnil : entries = []
    · subst hnil
      exact Nat.le_zero.1 hle
    · have hpos : 0 < written := h.full rfl hnil
      have hrest' : rest = [] := by
        refine Classical.byContradiction fun hne => hrest ⟨hne, ?_⟩
        have := List.length_pos_iff.2 hnil
        omega
      rw [hrest', List.length_nil] at hlen
      simp only
      omega

/-! ## The report -/

/-- Every entry of a dump is written, spilled or lost; the written ones are a
number of whole batches or all, and the others are spilled or lost together. -/
theorem dump_counts (d : DumpWriter) {entries : List Entry} (hne : entries ≠ []) (w : World) :
    (d.dump entries w).1.written + (d.dump entries w).1.spilled + (d.dump entries w).1.lost =
        entries.length ∧
      ((d.dump entries w).1.written = entries.length ∨ batchSize ∣ (d.dump entries w).1.written) ∧
      ((d.dump entries w).1.spilled = 0 ∨ (d.dump entries w).1.lost = 0) ∧
      ((d.dump entries w).1.spilled = 0 ∧ (d.dump entries w).1.lost = 0 ↔
        (d.dump entries w).1.written = entries.length) := by
  have h := d.writeEntries_counts entries w
  simp only [dump, if_neg hne]
  split
  · next written rotations notices d' w' hrun =>
    rw [hrun] at h
    have hall : written = entries.length := h.written_of_none rfl
    exact ⟨hall, .inl hall, .inl rfl, fun _ => hall, fun _ => ⟨rfl, rfl⟩⟩
  · next e written rotations notices d' w' hrun =>
    rw [hrun] at h
    have hlt : written < entries.length := h.lt_of_some e rfl hne
    have hwhole : written = entries.length ∨ batchSize ∣ written := h.whole
    have hlen : (entries.drop written).length = entries.length - written := List.length_drop
    split
    · refine ⟨?_, hwhole, .inr rfl, ?_⟩ <;> simp only <;> omega
    · refine ⟨?_, hwhole, .inl rfl, ?_⟩ <;> simp only <;> omega

end DumpWriter

end LogPipeline
