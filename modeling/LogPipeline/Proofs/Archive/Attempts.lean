import LogPipeline.Proofs.Archive.Series
import LogPipeline.Proofs.Dump.Rotation

/-!
# The rotations that a writer attempts

A writer attempts rotations in its dumps and when it is asked to rotate; each attempt asks
for an archive name, and uses up a sequence number whether or not the renaming succeeds
(`Scribe.numbers_attempts`). So the archive names of a writer repeat only for a time that is
written in the same way, and then only after all sequence numbers have been used
(`Scribe.archive_names_unique`).
-/

namespace LogPipeline

/-! ## Attempts -/

/-- An attempt to rotate: the writer and the world before it. -/
abbrev Attempt := DumpWriter × World

namespace Attempt

/-- The archive name that an attempt asks for. -/
def archive (a : Attempt) : Path := a.1.nextArchive a.2

/-- The time of an attempt, as it is written in the archive name. -/
def stamp (a : Attempt) : List Char := a.2.localNow.civil.archiveStamp

end Attempt

/-- The archive name that a failure to rename tells of. -/
def DumpError.target? : DumpError → Option Path
  | renameDump _ target _ => some target
  | _ => none

/-- The archive name that a notice tells of, whether or not the file could be renamed. -/
def Notice.asked? : Notice → Option Path
  | rotated archive => some archive
  | rotationFailed e => e.target?
  | _ => none

namespace DumpWriter

theorem asked_writeBatches (d : DumpWriter) (place : Place) (batches : List (List Entry))
    (w : World) : (d.writeBatches place batches w).1.notices.filterMap Notice.asked? = [] := by
  fun_induction DumpWriter.writeBatches d place batches w with
  | case1 w | case2 | case3 => rfl
  | case4 batch rest w w' _ size w'' _ hfull run w''' hrun ih => rwa [hrun] at ih
  | case5 batch rest w w' _ e w'' _ run w''' hrun ih => rwa [hrun] at ih

theorem asked_writeFile (d : DumpWriter) (entries : List Entry) (w : World) :
    (d.writeFile entries w).1.notices.filterMap Notice.asked? = [] := by
  unfold writeFile
  split
  · rfl
  · exact d.asked_writeBatches _ _ _

/-- A rotation answers with the archive name that it has asked for. -/
theorem rotate_answers (d : DumpWriter) (w : World) :
    (d.rotate w).1 = .ok (d.nextArchive w) ∨
      ∃ e, (d.rotate w).1 = .error e ∧ e.target? = some (d.nextArchive w) := by
  unfold rotate
  simp only
  split
  · exact .inl rfl
  · exact .inr ⟨_, rfl, rfl⟩

theorem asked_retain (d : DumpWriter) (w : World) :
    (d.retain w).1.filterMap Notice.asked? = [] := by
  unfold retain
  split
  · rfl
  · split <;> rfl

theorem asked_archiveFull (d : DumpWriter) (w : World) :
    (d.archiveFull w).2.1.filterMap Notice.asked? = [d.nextArchive w] := by
  have hanswer := d.rotate_answers w
  unfold archiveFull
  split
  · next archive d' w' hrotate =>
    rw [hrotate] at hanswer
    obtain rfl : archive = d.nextArchive w := by
      rcases hanswer with h | ⟨e, h, -⟩ <;> cases h
      rfl
    have hnone := d'.asked_retain w'
    simp only [List.filterMap_cons, Notice.asked?, hnone]
  · next e d' w' hrotate =>
    rw [hrotate] at hanswer
    rcases hanswer with h | ⟨e', h, htarget⟩ <;> cases h
    simp [Notice.asked?, htarget]

/-- The notices of the writing of entries tell of the attempts in it. -/
theorem asked_writeEntries (d : DumpWriter) (entries : List Entry) (w : World) :
    (d.writeEntries entries w).1.notices.filterMap Notice.asked? =
      (d.rotations entries w).map Attempt.archive := by
  fun_induction DumpWriter.writeEntries d entries w with
  | case1 d entries w e written notices w' hfile =>
    have hnone := d.asked_writeFile entries w
    rw [hfile] at hnone
    rwa [rotations, hfile]
  | case2 d entries w written notices w' hfile =>
    have hnone := d.asked_writeFile entries w
    rw [hfile] at hnone
    rwa [rotations, hfile]
  | case3 d entries w written notices w' hfile made more d' w'' harchive rest hrest run d'' w''' hrun ih =>
    have hmore : entries.drop written ≠ [] ∧ (entries.drop written).length < entries.length := hrest
    have hnone := d.asked_writeFile entries w
    have hfull := d.asked_archiveFull w'
    rw [hfile] at hnone
    rw [harchive] at hfull
    rw [hrun] at ih
    rw [rotations, hfile]
    simp only [harchive, dif_pos hmore, List.filterMap_append] at hnone hfull ih ⊢
    rw [hnone, hfull, ih]
    rfl
  | case4 d entries w written notices w' hfile made more d' w'' harchive rest hrest =>
    have hdone : ¬(entries.drop written ≠ [] ∧ (entries.drop written).length < entries.length) := hrest
    have hnone := d.asked_writeFile entries w
    have hfull := d.asked_archiveFull w'
    rw [hfile] at hnone
    rw [harchive] at hfull
    rw [rotations, hfile]
    simp only [harchive, dif_neg hdone, List.filterMap_append] at hnone hfull ⊢
    rw [hnone, hfull]
    rfl

/-- So do the notices of a dump. -/
theorem asked_dump (d : DumpWriter) (entries : List Entry) (w : World) :
    (d.dump entries w).2.1.filterMap Notice.asked? =
      (d.rotations entries w).map Attempt.archive := by
  by_cases hne : entries = []
  · subst hne
    rw [rotations_nil]
    rfl
  · have hwritten := d.asked_writeEntries entries w
    unfold dump
    rw [if_neg hne]
    split
    · next hrun =>
      rw [hrun] at hwritten
      exact hwritten
    · next hrun =>
      rw [hrun] at hwritten
      simp only at hwritten ⊢
      split <;> simp [Notice.asked?, hwritten]

/-! ## Sequence numbers -/

/-- Attempts that take one sequence number after the other, from that of a writer on, and
leave it at the next one. -/
def Numbers (d : DumpWriter) (attempts : List Attempt) (d' : DumpWriter) : Prop :=
  ∀ k, d.nextSequence = k % lastSequence + 1 →
    (∀ i a, attempts[i]? = some a → a.1.nextSequence = (k + i) % lastSequence + 1) ∧
      d'.nextSequence = (k + attempts.length) % lastSequence + 1

namespace Numbers

variable {d d' d'' : DumpWriter} {as bs : List Attempt}

theorem of_sequence (h : d'.sequence = d.sequence) : Numbers d [] d' := by
  have hnext : d'.nextSequence = d.nextSequence := by simp only [nextSequence, h]
  exact fun k hk => ⟨by simp, hnext.trans hk⟩

theorem trans (h : Numbers d as d') (h' : Numbers d' bs d'') : Numbers d (as ++ bs) d'' := by
  intro k hk
  obtain ⟨has, hd'⟩ := h k hk
  obtain ⟨hbs, hd''⟩ := h' _ hd'
  refine ⟨fun i a ha => ?_, by rw [List.length_append, ← Nat.add_assoc]; exact hd''⟩
  rcases Nat.lt_or_ge i as.length with hi | hi
  · rw [List.getElem?_append_left hi] at ha
    exact has i a ha
  · rw [List.getElem?_append_right hi] at ha
    have hnumber := hbs _ a ha
    rwa [show k + as.length + (i - as.length) = k + i by omega] at hnumber

/-- An attempt uses up its number. -/
theorem one (w : World) (hd : d'.sequence = d.nextSequence) : Numbers d [(d, w)] d' := by
  intro k hk
  have hnext : d'.nextSequence = (k + 1) % lastSequence + 1 := by
    unfold nextSequence
    rw [hd, hk]
    unfold lastSequence
    split <;> omega
  refine ⟨fun i a ha => ?_, hnext⟩
  cases i with
  | zero =>
    cases ha
    exact hk
  | succ i => simp at ha

end Numbers

theorem numbers_writeEntries (d : DumpWriter) (entries : List Entry) (w : World) :
    Numbers d (d.rotations entries w) (d.writeEntries entries w).2.1 := by
  fun_induction DumpWriter.writeEntries d entries w with
  | case1 d entries w e written notices w' hfile =>
    rw [rotations, hfile]
    exact .of_sequence rfl
  | case2 d entries w written notices w' hfile =>
    rw [rotations, hfile]
    exact .of_sequence rfl
  | case3 d entries w written notices w' hfile made more d' w'' harchive rest hrest run d'' w''' hrun ih =>
    have hmore : entries.drop written ≠ [] ∧ (entries.drop written).length < entries.length := hrest
    have hwriter := d.writer_archiveFull w'
    rw [harchive] at hwriter
    obtain rfl : d' = _ := hwriter
    rw [hrun] at ih
    rw [rotations, hfile]
    simp only [harchive, dif_pos hmore]
    exact (Numbers.one w' rfl).trans ih
  | case4 d entries w written notices w' hfile made more d' w'' harchive rest hrest =>
    have hdone : ¬(entries.drop written ≠ [] ∧ (entries.drop written).length < entries.length) := hrest
    have hwriter := d.writer_archiveFull w'
    rw [harchive] at hwriter
    obtain rfl : d' = _ := hwriter
    rw [rotations, hfile]
    simp only [harchive, dif_neg hdone]
    exact .one w' rfl

/-- Only the writing to the dump file rotates. -/
theorem sequence_dump (d : DumpWriter) {entries : List Entry} (hne : entries ≠ []) (w : World) :
    (d.dump entries w).2.2.1 = (d.writeEntries entries w).2.1 := by
  unfold dump
  rw [if_neg hne]
  split
  · next hrun => rw [hrun]
  · next hrun =>
    rw [hrun]
    simp only
    split <;> rfl

theorem numbers_dump (d : DumpWriter) (entries : List Entry) (w : World) :
    Numbers d (d.rotations entries w) (d.dump entries w).2.2.1 := by
  by_cases hne : entries = []
  · subst hne
    rw [rotations_nil]
    exact .of_sequence rfl
  · rw [d.sequence_dump hne]
    exact d.numbers_writeEntries entries w

end DumpWriter

/-! ## Runs of a writer -/

/-- A dump writer and the world it works in. -/
structure Scribe where
  writer : DumpWriter
  world : World

/-- What a writer is asked for, or what happens meanwhile. -/
inductive ScribeMove where
  | dump (entries : List Entry)
  | rotate
  | setTarget (path : Path) (cap : UInt64)
  | setFallback (path : Path)
  | setRetention (days : Option UInt64)
  /-- The files, the clock or the outcomes to come change from outside. -/
  | outside (w : World)

namespace Scribe

/-- A new writer. -/
def new (path : Path) (cap : UInt64) (world : World) : Scribe := ⟨.new path cap, world⟩

def next (s : Scribe) : ScribeMove → Scribe
  | .dump entries =>
    let (_, _, d, w) := s.writer.dump entries s.world
    ⟨d, w⟩
  | .rotate =>
    let (_, d, w) := s.writer.rotate s.world
    ⟨d, w⟩
  | .setTarget path cap => { s with writer := s.writer.setTarget path cap }
  | .setFallback path => { s with writer := { s.writer with fallback := path } }
  | .setRetention days => { s with writer := { s.writer with retention := days } }
  | .outside w => { s with world := w }

def run (s : Scribe) (ms : List ScribeMove) : Scribe := ms.foldl next s

/-- The attempts in a move. -/
def attemptsIn (s : Scribe) : ScribeMove → List Attempt
  | .dump entries => s.writer.rotations entries s.world
  | .rotate => [(s.writer, s.world)]
  | _ => []

/-- The attempts in a run, in order. -/
def attempts (s : Scribe) : List ScribeMove → List Attempt
  | [] => []
  | m :: ms => s.attemptsIn m ++ (s.next m).attempts ms

/-- The archive names that a move has asked for, going by what it answers. -/
def askedIn (s : Scribe) : ScribeMove → List Path
  | .dump entries => (s.writer.dump entries s.world).2.1.filterMap Notice.asked?
  | .rotate =>
    match (s.writer.rotate s.world).1 with
    | .ok archive => [archive]
    | .error e => e.target?.toList
  | _ => []

/-- The archive names that a run has asked for, in order. -/
def asked (s : Scribe) : List ScribeMove → List Path
  | [] => []
  | m :: ms => s.askedIn m ++ (s.next m).asked ms

theorem askedIn_eq (s : Scribe) (m : ScribeMove) :
    s.askedIn m = (s.attemptsIn m).map Attempt.archive := by
  cases m with
  | dump entries => exact s.writer.asked_dump entries s.world
  | rotate =>
    rcases s.writer.rotate_answers s.world with h | ⟨e, h, htarget⟩
    · simp only [askedIn, h]
      rfl
    · simp only [askedIn, h, htarget]
      rfl
  | _ => rfl

theorem asked_eq (s : Scribe) (ms : List ScribeMove) :
    s.asked ms = (s.attempts ms).map Attempt.archive := by
  induction ms generalizing s with
  | nil => rfl
  | cons m ms ih => rw [asked, attempts, List.map_append, askedIn_eq, ih]

theorem numbers_attemptsIn (s : Scribe) (m : ScribeMove) :
    s.writer.Numbers (s.attemptsIn m) (s.next m).writer := by
  cases m with
  | dump entries => exact s.writer.numbers_dump entries s.world
  | rotate =>
    refine .one s.world ?_
    simp only [next]
    rw [(s.writer.rotate_cases s.world).1]
  | _ => exact .of_sequence rfl

/-- A run takes one sequence number after the other. -/
theorem numbers_attempts (s : Scribe) (ms : List ScribeMove) :
    s.writer.Numbers (s.attempts ms) (s.run ms).writer := by
  induction ms generalizing s with
  | nil => exact .of_sequence rfl
  | cons m ms ih => exact (s.numbers_attemptsIn m).trans (ih (s.next m))

/-- The first number of a new writer is one. -/
theorem nextSequence_attempts {path : Path} {cap : UInt64} {world : World} {ms : List ScribeMove}
    {k : Nat} {a : Attempt} (ha : ((new path cap world).attempts ms)[k]? = some a) :
    a.1.nextSequence = k % lastSequence + 1 := by
  have h := ((new path cap world).numbers_attempts ms 0 rfl).1 k a ha
  rwa [Nat.zero_add] at h

end Scribe

/-! ## Archive names -/

namespace Series

/-- A name tells the stamp and the sequence number it was made for. -/
theorem name_inj {s : Series} {c c' : Civil} (h : c.InRange) (h' : c'.InRange) {n n' : Nat} :
    s.name c n = s.name c' n' ↔ c.archiveStamp = c'.archiveStamp ∧ n = n' := by
  refine ⟨fun heq => ?_, fun ⟨hstamp, hn⟩ => by rw [name, name, hstamp, hn]⟩
  have hsequence := ((h.digits n).not_mem (c := '_') rfl).2.2
  have hsequence' := ((h'.digits n').not_mem (c := '_') rfl).2.2
  have hcut := List.append_cancel_left (List.append_cancel_right heq)
  obtain ⟨hstamp, hpadded⟩ :=
    append_underscore_inj hsequence hsequence' (List.cons.inj hcut).2
  refine ⟨hstamp, ?_⟩
  rw [← Decimal.value_padded 5 n, hpadded, Decimal.value_padded]

variable {p : Path} {file : List Char}

/-- A path without file name is that of a directory, and its archives lie there. -/
theorem fileName?_archive_of_none (h : p.fileName? = none) (time : LocalTime) (n : Nat) :
    (p.archive time n).fileName? = some ((ofPath p).name time.civil n) := by
  have hlen := (ofPath p).length_name time n
  have hslash : '/' ∉ (ofPath p).name time.civil n := by
    obtain ⟨hdate, hclock, hsequence⟩ :=
      (time.inRange_civil.digits n).not_mem (c := '/') rfl
    rw [name_eq]
    simp [stamp, ofPath, Path.stem, Path.suffix, Path.extension?, h, hdate, hclock, hsequence]
  have hlast := p.map_snd_splitLast?_join hslash (Path.isVoid_of_length (by omega))
  have harchive : p.archive time n =
      p.join ⟨String.ofList ((ofPath p).name time.civil n)⟩ := by
    simp [Path.archive, Path.withFileName, h]
  rw [harchive, Path.fileName?_eq, hlast]
  simp only [Option.bind_some]
  refine if_neg ?_
  simp only [Bool.or_eq_true, decide_eq_true_eq]
  rintro (heq | heq) <;> rw [heq] at hlen <;> simp at hlen

/-- No archive of a path has its file name. -/
theorem fileName?_archive_ne (p : Path) (time : LocalTime) (n : Nat) :
    (p.archive time n).fileName? ≠ p.fileName? := by
  intro hnames
  cases hfile : p.fileName? with
  | none =>
    rw [fileName?_archive_of_none hfile, hfile] at hnames
    cases hnames
  | some file =>
    rw [fileName?_archive hfile, hfile, Option.some.injEq, name_eq,
      ← Path.stem_append_suffix hfile] at hnames
    have hlen := congrArg List.length hnames
    have := (time.inRange_civil.digits n).length_stamp
    simp only [ofPath, List.length_append] at hlen
    omega

/-- No archive of a path is the path itself. -/
theorem plain_archive_ne (p : Path) (time : LocalTime) (n : Nat) :
    (p.archive time n).plain ≠ p.plain := fun heq => by
  have hnames := congrArg Path.fileName? heq
  rw [Path.fileName?_plain, Path.fileName?_plain] at hnames
  exact fileName?_archive_ne p time n hnames

/-- Archives of a file are the same exactly if they are made for the same stamp and sequence
number. -/
theorem plain_archive_inj (h : p.fileName? = some file) {time time' : LocalTime} {n n' : Nat} :
    (p.archive time n).plain = (p.archive time' n').plain ↔
      time.civil.archiveStamp = time'.civil.archiveStamp ∧ n = n' := by
  have hname : (ofPath p).name time.civil n = (ofPath p).name time'.civil n' ↔ _ :=
    name_inj time.inRange_civil time'.inRange_civil
  refine ⟨fun heq => ?_, fun hsame => by rw [Path.archive, Path.archive, hname.2 hsame]⟩
  have hnames := congrArg Path.fileName? heq
  rw [Path.fileName?_plain, Path.fileName?_plain, fileName?_archive h, fileName?_archive h,
    Option.some.injEq] at hnames
  exact hname.1 hnames

end Series

namespace Scribe

/-- The archive names of one writer, whatever it is asked for, whatever the clock shows and
whichever rotations fail. The attempts are those that its answers tell of, and they take the
sequence numbers from one to the last and then again; under the same target two of them ask
for the same path exactly if their times are written in the same way and all sequence numbers
have been used between them, once or more; and none asks for its target. -/
theorem archive_names_unique (path : Path) (cap : UInt64) (world : World)
    (ms : List ScribeMove) :
    let attempts := (new path cap world).attempts ms
    (new path cap world).asked ms = attempts.map Attempt.archive ∧
      (∀ (k : Nat) (a : Attempt), attempts[k]? = some a →
        a.archive = a.1.path.archive a.2.localNow (k % lastSequence + 1)) ∧
      (∀ (j k : Nat) (a b : Attempt), j < k → attempts[j]? = some a → attempts[k]? = some b →
        a.1.path = b.1.path → a.1.path.fileName?.isSome →
        (a.archive.plain = b.archive.plain ↔ a.stamp = b.stamp ∧ lastSequence ∣ k - j)) ∧
      ∀ a ∈ attempts, a.archive.plain ≠ a.1.path.plain := by
  intro attempts
  have harchive : ∀ (k : Nat) (a : Attempt), attempts[k]? = some a →
      a.archive = a.1.path.archive a.2.localNow (k % lastSequence + 1) := fun k a ha => by
    rw [Attempt.archive, DumpWriter.nextArchive, nextSequence_attempts ha]
  refine ⟨asked_eq _ ms, harchive, fun j k a b hjk ha hb hpath hfile => ?_, fun a _ =>
    Series.plain_archive_ne a.1.path a.2.localNow a.1.nextSequence⟩
  obtain ⟨file, hfile⟩ := Option.isSome_iff_exists.1 hfile
  have hnumber : j % lastSequence + 1 = k % lastSequence + 1 ↔ lastSequence ∣ k - j := by
    unfold lastSequence
    omega
  rw [harchive j a ha, harchive k b hb, ← hpath, Series.plain_archive_inj hfile, hnumber]
  rfl

/-- A rotation that finds no file, and one that finds a file after it, in the same second. -/
example :
    (new ⟨"app.log"⟩ 1 (.calm ⟨[], []⟩ fun _ => 0)).asked
        [.rotate, .dump [.tagged (.utc 0) .info "t" [.text "first"]]] =
      [⟨"app_700101_000000_00001.log"⟩, ⟨"app_700101_000000_00002.log"⟩] := by
  decide +kernel

end Scribe

end LogPipeline
