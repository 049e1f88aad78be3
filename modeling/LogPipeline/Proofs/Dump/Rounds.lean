import LogPipeline.Proofs.Dump.Account

/-!
# The rounds of a dump

Writing entries to the dump file is a loop with no bound of its own: each round opens the
file, appends batches until the file is full or none are left, and archives a full file,
whether or not that succeeds. `Writing.rounds` runs this loop, and is where `writeEntries`
comes to (`exists_rounds`, `result_rounds`). A round in which nothing fails puts at least one whole
batch behind it, whatever the disk does (`Writing.Aligned.round`), so that the loop ends after
no more rounds than there are batches (`DumpWriter.writing_ends`).
-/

namespace LogPipeline

/-- The number of batches of some entries. -/
def batchCount (entries : List Entry) : Nat := (entries.length + (batchSize - 1)) / batchSize

theorem length_chunks {α : Type} {n : Nat} (hn : 0 < n) (xs : List α) :
    (chunks n xs).length = (xs.length + (n - 1)) / n := by
  fun_induction chunks n xs with
  | case1 xs h =>
    obtain rfl := h.resolve_right (Nat.ne_of_gt hn)
    exact (Nat.div_eq_of_lt (by simp only [List.length_nil]; omega)).symm
  | case2 xs h ih =>
    have hpos : 0 < xs.length := List.length_pos_iff.2 (not_or.1 h).1
    rw [List.length_cons, ih, List.length_drop]
    rcases Nat.lt_or_ge n xs.length with hlt | hge
    · have hsplit : xs.length + (n - 1) = xs.length - n + (n - 1) + n := by omega
      rw [hsplit, Nat.add_div_right _ hn]
    · have hlast : xs.length + (n - 1) = xs.length - 1 + n := by omega
      rw [hlast, Nat.add_div_right _ hn, Nat.div_eq_of_lt (by omega), Nat.div_eq_of_lt (by omega)]

theorem length_chunks_entries (entries : List Entry) :
    (chunks batchSize entries).length = batchCount entries := length_chunks batchSize_pos entries

/-- Where the writing of some entries stands between two rounds. -/
structure Writing where
  writer : DumpWriter
  world : World
  /-- Entries that the dump file and its archives have taken. -/
  written : Nat
  /-- Times that the dump file has been opened, or could not be. -/
  openings : Nat
  rotations : Nat
  notices : List Notice
  failure : Option DumpError

namespace Writing

def begin (d : DumpWriter) (w : World) : Writing := ⟨d, w, 0, 0, 0, [], none⟩

/-- Nothing has failed, and entries are left. -/
def GoesOn (entries : List Entry) (x : Writing) : Prop :=
  x.failure = none ∧ x.written < entries.length

instance (entries : List Entry) (x : Writing) : Decidable (x.GoesOn entries) :=
  inferInstanceAs (Decidable (x.failure = none ∧ x.written < entries.length))

/-- One round: the entries that are left are written to the dump file until it is full,
and a full file is archived. -/
def round (entries : List Entry) (x : Writing) : Writing :=
  let (run, world) := x.writer.writeFile (entries.drop x.written) x.world
  let next := { x with
    world
    written := x.written + run.written
    openings := x.openings + 1
    notices := x.notices ++ run.notices }
  match run.ended with
  | .failed e => { next with failure := some e }
  | .complete => next
  | .full =>
    let (made, more, writer, world) := x.writer.archiveFull world
    { next with writer, world, rotations := x.rotations + made, notices := next.notices ++ more }

/-- Rounds while there is a reason to go on, and at most so many. -/
def rounds (entries : List Entry) : Nat → Writing → Writing
  | 0, x => x
  | n + 1, x => if x.GoesOn entries then rounds entries n (x.round entries) else x

/-- What has become of the entries. -/
def result (x : Writing) : DumpRun × DumpWriter × World :=
  (⟨x.failure, x.written, x.rotations, x.notices⟩, x.writer, x.world)

variable {entries : List Entry} {x : Writing}

/-! ## Any number of rounds -/

/-- What every round keeps holds after any number of them. -/
theorem rounds_induction {P : Writing → Prop}
    (step : ∀ x, P x → x.GoesOn entries → P (x.round entries)) (n : Nat) {x : Writing} (h : P x) :
    P (rounds entries n x) := by
  induction n generalizing x with
  | zero => exact h
  | succ n ih =>
    rw [rounds]
    split
    · next hgo => exact ih (step x h hgo)
    · exact h

theorem rounds_of_not_goesOn (h : ¬x.GoesOn entries) (n : Nat) : rounds entries n x = x := by
  cases n with
  | zero => rfl
  | succ n => rw [rounds, if_neg h]

theorem rounds_add (n m : Nat) (x : Writing) :
    rounds entries (n + m) x = rounds entries m (rounds entries n x) := by
  induction n generalizing x with
  | zero => rw [Nat.zero_add, rounds]
  | succ n ih =>
    rw [Nat.add_right_comm, rounds, rounds]
    split
    · exact ih _
    · next h => rw [rounds_of_not_goesOn h]

/-- A loop that has come to its end stays there, so that it has one end only. -/
theorem rounds_unique {n m : Nat} (hn : ¬(rounds entries n x).GoesOn entries)
    (hm : ¬(rounds entries m x).GoesOn entries) : rounds entries n x = rounds entries m x := by
  have hend : ∀ {i j}, i ≤ j → ¬(rounds entries i x).GoesOn entries →
      rounds entries j x = rounds entries i x := by
    intro i j hij hi
    obtain ⟨k, rfl⟩ := Nat.exists_eq_add_of_le hij
    rw [rounds_add, rounds_of_not_goesOn hi]
  rcases Nat.le_total n m with hle | hle
  · exact (hend hle hn).symm
  · exact hend hle hm

/-! ## What a round writes -/

/-- A round opens one file and makes at most one archive, and what it writes is what the
file takes. -/
theorem round_spec (entries : List Entry) (x : Writing) :
    (x.round entries).written = x.written +
        (x.writer.writeFile (entries.drop x.written) x.world).1.written ∧
      (x.round entries).openings = x.openings + 1 ∧
      (x.round entries).rotations ≤ x.rotations + 1 ∧
      ((x.round entries).failure = x.failure ∧
          (∀ e, (x.writer.writeFile (entries.drop x.written) x.world).1.ended ≠ .failed e) ∨
        ∃ e, (x.round entries).failure = some e ∧
          (x.writer.writeFile (entries.drop x.written) x.world).1.ended = .failed e) := by
  unfold round
  cases hrun : x.writer.writeFile (entries.drop x.written) x.world with
  | mk run w =>
    obtain ⟨ended, written, notices⟩ := run
    cases ended with
    | failed e => exact ⟨rfl, rfl, Nat.le_succ _, .inr ⟨e, rfl, rfl⟩⟩
    | complete => exact ⟨rfl, rfl, Nat.le_succ _, .inl ⟨rfl, nofun⟩⟩
    | full =>
      refine ⟨rfl, rfl, Nat.add_le_add_left ?_ _, .inl ⟨rfl, nofun⟩⟩
      unfold DumpWriter.archiveFull
      split <;> simp

/-- The entries of the first batches have been written. -/
def Puts (entries : List Entry) (j written : Nat) : Prop :=
  j ≤ batchCount entries ∧ written = ((chunks batchSize entries).take j).flatten.length

theorem Puts.le {j written : Nat} (h : Puts entries j written) : written ≤ entries.length := by
  obtain ⟨-, rfl⟩ := h
  have hall := congrArg List.length (flatten_chunks batchSize_pos entries)
  rw [← List.take_append_drop j (chunks batchSize entries), List.flatten_append,
    List.length_append] at hall
  omega

theorem puts_all (entries : List Entry) : Puts entries (batchCount entries) entries.length := by
  refine ⟨Nat.le_refl _, ?_⟩
  rw [← length_chunks_entries, List.take_length, flatten_chunks batchSize_pos]

/-- What a file takes after the first batches. -/
theorem Puts.writeFile {j written : Nat} (h : Puts entries j written) (d : DumpWriter) (w : World) :
    ∃ j', j ≤ j' ∧ Puts entries j' (written + (d.writeFile (entries.drop written) w).1.written) ∧
      (written < entries.length →
        (∀ e, (d.writeFile (entries.drop written) w).1.ended ≠ .failed e) → j < j') := by
  obtain ⟨done, rest, hsplit, hwritten, -, hfull, -⟩ := d.writeFile_split (entries.drop written) w
  have hcounts := d.writeFile_counts (entries.drop written) w
  obtain ⟨hj, hput⟩ := h
  -- the batches of what is left are the batches that are left
  have hrest : chunks batchSize (entries.drop written) = (chunks batchSize entries).drop j := by
    obtain ⟨-, heq, -⟩ := chunks_eq_append batchSize_pos
      (List.take_append_drop j (chunks batchSize entries)).symm
    rw [heq, hput]
  have hbatches : chunks batchSize entries =
      (chunks batchSize entries).take j ++ done ++ rest := by
    rw [List.append_assoc, ← hsplit, hrest, List.take_append_drop]
  have hlength : ((chunks batchSize entries).take j).length = j := by
    rw [List.length_take, length_chunks_entries]
    exact Nat.min_eq_left hj
  have htake : (chunks batchSize entries).take (j + done.length) =
      (chunks batchSize entries).take j ++ done := by
    have hfirst : ((chunks batchSize entries).take j ++ done).length = j + done.length := by
      rw [List.length_append, hlength]
    have hleft : ((chunks batchSize entries).take j ++ done ++ rest).take (j + done.length) =
        (chunks batchSize entries).take j ++ done := List.take_left' hfirst
    rwa [← hbatches] at hleft
  refine ⟨j + done.length, Nat.le_add_right _ _, ⟨?_, ?_⟩, fun hlt hok => ?_⟩
  · have := congrArg List.length hbatches
    rw [length_chunks_entries, List.length_append, List.length_append, hlength] at this
    omega
  · rw [htake, List.flatten_append, List.length_append, ← hput, hwritten]
  · -- entries are left, and neither a complete nor a full file takes none of them
    have hne : done ≠ [] := by
      cases hended : (d.writeFile (entries.drop written) w).1.ended with
      | failed e => exact absurd hended (hok e)
      | full => exact hfull hended
      | complete =>
        rintro rfl
        have hall := hcounts.complete hended
        rw [hwritten, List.length_drop] at hall
        simp only [List.flatten_nil, List.length_nil] at hall
        omega
    exact Nat.lt_add_of_pos_right (List.length_pos_iff.2 hne)

/-- Some first batches are written: as many as there were rounds, unless the last round has
failed, and then entries are left. -/
structure Aligned (entries : List Entry) (x : Writing) (j : Nat) : Prop where
  puts : Puts entries j x.written
  openings : x.openings ≤ j ∨ x.openings ≤ j + 1 ∧ x.written < entries.length
  of_none : x.failure = none → x.openings ≤ j
  rotations : x.rotations ≤ x.openings

theorem aligned_begin (entries : List Entry) (d : DumpWriter) (w : World) :
    Aligned entries (begin d w) 0 :=
  ⟨⟨Nat.zero_le _, rfl⟩, .inl (Nat.le_refl _), fun _ => Nat.le_refl _, Nat.le_refl _⟩

/-- A round keeps whole batches, and puts one more behind it unless something fails. -/
theorem Aligned.round {j : Nat} (h : Aligned entries x j) (hgo : x.GoesOn entries) :
    ∃ j', Aligned entries (x.round entries) j' ∧ ((x.round entries).failure = none → j < j') := by
  obtain ⟨hnone, hlt⟩ := hgo
  obtain ⟨hwritten, hopenings, hrotations, hfailure⟩ := round_spec entries x
  obtain ⟨j', hle, hputs, hmore⟩ := h.puts.writeFile x.writer x.world
  have hbefore := h.of_none hnone
  have hkept := h.rotations
  have hnext : Puts entries j' (x.round entries).written := hwritten ▸ hputs
  rcases hfailure with ⟨hsame, hok⟩ | ⟨e, hsome, hended⟩
  · have hj := hmore hlt hok
    have hdone : (x.round entries).openings ≤ j' := by omega
    exact ⟨j', ⟨hnext, .inl hdone, fun _ => hdone, by omega⟩, fun _ => hj⟩
  · -- a file that fails has not taken all entries
    have hleft := (x.writer.writeFile_counts (entries.drop x.written) x.world).failed e hended
      (by simpa using hlt)
    rw [List.length_drop] at hleft
    refine ⟨j', ⟨hnext, .inr ⟨by omega, by omega⟩, fun hn => ?_, by omega⟩, fun hn => ?_⟩ <;>
      cases hsome.symm.trans hn

theorem Aligned.openings_le {j : Nat} (h : Aligned entries x j) :
    x.openings ≤ batchCount entries := by
  have hj := h.puts.1
  rcases h.openings with hle | ⟨hle, hlt⟩
  · exact Nat.le_trans hle hj
  · -- not all batches are written, as entries are left
    have hne : j ≠ batchCount entries := by
      rintro rfl
      have hall := (puts_all entries).2
      rw [← h.puts.2] at hall
      omega
    omega

/-- While a loop goes on, there have been as many openings as rounds. -/
theorem openings_rounds (entries : List Entry) (n : Nat) (x : Writing) :
    ¬(rounds entries n x).GoesOn entries ∨ (rounds entries n x).openings = x.openings + n := by
  induction n generalizing x with
  | zero => exact .inr rfl
  | succ n ih =>
    rw [rounds]
    split
    · refine (ih (x.round entries)).imp_right fun h => ?_
      rw [h, (round_spec entries x).2.1, Nat.add_right_comm, Nat.add_assoc]
    · next h => exact .inl h

theorem aligned_rounds (entries : List Entry) (d : DumpWriter) (w : World) (n : Nat) :
    ∃ j, Aligned entries (rounds entries n (begin d w)) j :=
  rounds_induction (P := fun x => ∃ j, Aligned entries x j)
    (fun _ ⟨_, h⟩ hgo => have ⟨j', h', _⟩ := h.round hgo; ⟨j', h'⟩) n ⟨0, aligned_begin entries d w⟩

/-- The loop has come to its end after as many rounds as there are batches. -/
theorem rounds_batchCount (entries : List Entry) (d : DumpWriter) (w : World) :
    ¬(rounds entries (batchCount entries) (begin d w)).GoesOn entries := by
  intro hgo
  obtain ⟨j, h⟩ := aligned_rounds entries d w (batchCount entries)
  have hopenings := (openings_rounds entries (batchCount entries) (begin d w)).resolve_left
    (fun hstop => hstop hgo)
  have hbegin : (begin d w).openings = 0 := rfl
  have hle := h.of_none hgo.1
  have hj : j = batchCount entries := Nat.le_antisymm h.puts.1 (by omega)
  have hall := (puts_all entries).2
  rw [← hj, ← h.puts.2] at hall
  have := hgo.2
  omega

/-! ## Where the loop comes to -/

theorem rounds_one (hgo : x.GoesOn entries) : rounds entries 1 x = x.round entries := by
  rw [rounds, if_pos hgo, rounds]

/-- A round that fills the file leaves the entries after those it has written, to a writer
that has archived the file. -/
theorem round_of_full {written made : Nat} {notices more : List Notice} {w w' : World}
    {d : DumpWriter}
    (hfile : x.writer.writeFile (entries.drop x.written) x.world = (⟨.full, written, notices⟩, w))
    (harchive : x.writer.archiveFull w = (made, more, d, w')) :
    x.round entries = ⟨d, w', x.written + written, x.openings + 1, x.rotations + made,
      x.notices ++ notices ++ more, x.failure⟩ := by
  simp only [round, hfile, harchive]

/-- From any point at which the loop goes on, it comes to where `writeEntries` comes to with
the entries that are left. -/
theorem exists_rounds (hgo : x.GoesOn entries) :
    ∃ n, ¬(rounds entries n x).GoesOn entries ∧
      let r := x.writer.writeEntries (entries.drop x.written) x.world
      (rounds entries n x).result =
        (⟨r.1.failure, x.written + r.1.written, x.rotations + r.1.rotations,
          x.notices ++ r.1.notices⟩, r.2.1, r.2.2) := by
  generalize hd : x.writer = d
  generalize hleft : entries.drop x.written = left
  generalize hw : x.world = w
  fun_induction DumpWriter.writeEntries d left w generalizing x with
  | case1 d left w e written notices w' hfile =>
    subst hd hleft hw
    have hround : x.round entries = { x with
        world := w'
        written := x.written + written
        openings := x.openings + 1
        notices := x.notices ++ notices
        failure := some e } := by
      simp only [round, hfile]
    refine ⟨1, ?_, ?_⟩ <;> rw [rounds_one hgo, hround]
    · exact fun hgo' => by cases hgo'.1
    · rfl
  | case2 d left w written notices w' hfile =>
    subst hd hleft hw
    have hround : x.round entries = { x with
        world := w'
        written := x.written + written
        openings := x.openings + 1
        notices := x.notices ++ notices } := by
      simp only [round, hfile]
    have hall := (x.writer.writeFile_counts (entries.drop x.written) x.world).complete
      (by rw [hfile])
    rw [hfile, List.length_drop] at hall
    refine ⟨1, ?_, ?_⟩ <;> rw [rounds_one hgo, hround]
    · rintro ⟨-, hlt⟩
      simp only at hall hlt
      omega
    · simp only [result, hgo.1, Nat.add_zero]
  | case3 d left w written notices w' hfile made more d' w'' harchive rest hrest run d'' w''' hrun =>
    rename_i ih
    subst hd hleft hw
    have hround := round_of_full hfile harchive
    have hdrop : entries.drop (x.round entries).written = rest := by
      rw [hround, ← List.drop_drop]
    have hgo' : (x.round entries).GoesOn entries := by
      refine ⟨by rw [hround]; exact hgo.1, ?_⟩
      have hpos := List.length_pos_iff.2 hrest.1
      rw [← hdrop, List.length_drop] at hpos
      omega
    obtain ⟨n, hstop, hresult⟩ := ih hgo' (by rw [hround]) hdrop (by rw [hround])
    refine ⟨1 + n, ?_, ?_⟩ <;> rw [rounds_add, rounds_one hgo]
    · exact hstop
    · rw [hresult, hrun, hround]
      simp only [Nat.add_assoc, List.append_assoc]
  | case4 d left w written notices w' hfile made more d' w'' harchive rest =>
    rename_i hrest
    subst hd hleft hw
    have hround := round_of_full hfile harchive
    refine ⟨1, ?_, ?_⟩ <;> rw [rounds_one hgo, hround]
    · -- a full file has taken some entries, so that none are left
      rintro ⟨-, hlt⟩
      have hpos := (x.writer.writeFile_counts (entries.drop x.written) x.world).full
        (by rw [hfile]) (by simpa using hgo.2)
      have hlength : rest.length = entries.length - x.written - written := by
        rw [List.length_drop, List.length_drop]
      rw [hfile] at hpos
      simp only at hpos hlt
      refine hrest ⟨List.length_pos_iff.1 (by omega), ?_⟩
      rw [hlength, List.length_drop]
      omega
    · simp only [result, hgo.1, List.append_assoc]

/-- What is written from the beginning. -/
theorem result_rounds {n : Nat} {d : DumpWriter} {w : World} (hne : entries ≠ [])
    (h : ¬(rounds entries n (begin d w)).GoesOn entries) :
    (rounds entries n (begin d w)).result = d.writeEntries entries w := by
  have hgo : (begin d w).GoesOn entries := ⟨rfl, List.length_pos_iff.2 hne⟩
  obtain ⟨m, hstop, hresult⟩ := exists_rounds hgo
  rw [rounds_unique h hstop, hresult]
  simp only [begin, List.drop_zero, Nat.zero_add, List.nil_append]

end Writing

/-- The writing of any entries, with any cap, on any disk and whatever its operations come to,
is over after at most as many openings of the dump file as there are batches. All along the
written entries are some first batches, each round that does not fail puts at least one batch
more behind it, and there are no more archives than openings. A dump writes and archives what
this loop does. -/
theorem DumpWriter.writing_ends (d : DumpWriter) (entries : List Entry) (w : World) :
    (∀ n, let x := (Writing.begin d w).rounds entries n
      x.written ≤ entries.length ∧ x.openings ≤ batchCount entries ∧
        x.rotations ≤ x.openings ∧
        (x.GoesOn entries → (x.round entries).failure = none → ∃ j j', j < j' ∧
          j' ≤ (chunks batchSize entries).length ∧
          x.written = ((chunks batchSize entries).take j).flatten.length ∧
          (x.round entries).written = ((chunks batchSize entries).take j').flatten.length)) ∧
      let last := (Writing.begin d w).rounds entries (batchCount entries)
      ¬last.GoesOn entries ∧ (entries ≠ [] → d.writeEntries entries w = last.result) ∧
        (d.dump entries w).1.written = last.written ∧
        (d.dump entries w).1.rotations = last.rotations := by
  refine ⟨fun n => ?_, ?_⟩
  · obtain ⟨j, h⟩ := Writing.aligned_rounds entries d w n
    refine ⟨h.puts.le, h.openings_le, h.rotations, fun hgo hnone => ?_⟩
    obtain ⟨j', h', hlt⟩ := h.round hgo
    exact ⟨j, j', hlt hnone, length_chunks_entries entries ▸ h'.puts.1, h.puts.2, h'.puts.2⟩
  · intro last
    have hstop : ¬last.GoesOn entries := Writing.rounds_batchCount entries d w
    have hresult : entries ≠ [] → d.writeEntries entries w = last.result := fun hne =>
      (Writing.result_rounds hne hstop).symm
    refine ⟨hstop, hresult, ?_⟩
    by_cases hne : entries = []
    · subst hne
      exact ⟨rfl, rfl⟩
    · obtain ⟨hwritten, hrotations, -⟩ := d.dump_cases hne w
      rw [hwritten, hrotations, hresult hne]
      exact ⟨rfl, rfl⟩

end LogPipeline
