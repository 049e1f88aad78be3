import LogPipeline.Archive
import LogPipeline.Proofs.Archive.FileName
import LogPipeline.Proofs.Calendar

/-!
# Archive names and their series

A name belongs to a series exactly if it is the stem, three groups of digits and the
suffix (`holds_iff`), and every name that is made for a series is of this form
(`holds_name`). The groups can be read off the end of what stands before the suffix, and
hold no dot, so that a name belongs to the series of one file name at most
(`fileName_unique`).
-/

namespace LogPipeline

open Decimal (isDigit padded)

namespace Series

/-- Three groups of digits, the first two of them of six and the last of at least five. -/
structure Digits (date clock sequence : List Char) : Prop where
  date_length : date.length = 6
  clock_length : clock.length = 6
  five_le_length : 5 ≤ sequence.length
  isDigit : ∀ c ∈ date ++ clock ++ sequence, isDigit c = true

/-- The groups with an underscore in front of each. -/
def stamp (date clock sequence : List Char) : List Char :=
  '_' :: date ++ '_' :: clock ++ '_' :: sequence

variable {date clock sequence : List Char}

namespace Digits

/-- A character that is no digit is in none of the groups. -/
theorem not_mem (h : Digits date clock sequence) {c : Char} (hc : Decimal.isDigit c = false) :
    c ∉ date ∧ c ∉ clock ∧ c ∉ sequence := by
  have hmem : c ∉ date ++ clock ++ sequence := fun hmem => by simp [h.isDigit c hmem] at hc
  simpa [not_or, and_assoc] using hmem

theorem length_stamp (h : Digits date clock sequence) :
    20 ≤ (stamp date clock sequence).length := by
  have := h.date_length
  have := h.clock_length
  have := h.five_le_length
  simp only [stamp, List.length_append, List.length_cons]
  omega

/-- A stamp holds no dot. -/
theorem dot_not_mem (h : Digits date clock sequence) : '.' ∉ stamp date clock sequence := by
  obtain ⟨hdate, hclock, hsequence⟩ := h.not_mem (c := '.') rfl
  simp [stamp, hdate, hclock, hsequence]

end Digits

/-! ## What belongs to a series -/

theorem isStamp_iff {text : List Char} :
    isStamp text = true ↔ ∃ date clock sequence, Digits date clock sequence ∧
      '_' :: text = stamp date clock sequence := by
  constructor
  · intro h
    unfold isStamp at h
    split at h
    · next date clock sequence hpieces =>
      have hjoin := Text.joinWith_pieces '_' text
      rw [hpieces] at hjoin
      simp only [Bool.and_eq_true, beq_iff_eq, decide_eq_true_eq, List.all_eq_true] at h
      obtain ⟨⟨⟨⟨⟨hdate, hclock⟩, hlen⟩, hd⟩, hc⟩, hs⟩ := h
      refine ⟨date, clock, sequence, ⟨hdate, hclock, hlen, fun c hmem => ?_⟩, ?_⟩
      · rcases List.mem_append.1 hmem with hmem | hmem
        · exact (List.mem_append.1 hmem).elim (hd c) (hc c)
        · exact hs c hmem
      · rw [← hjoin]
        simp [Text.joinWith, stamp]
    · cases h
  · rintro ⟨date, clock, sequence, h, htext⟩
    obtain ⟨hdate, hclock, hsequence⟩ := h.not_mem (c := '_') rfl
    have hjoin : text = Text.joinWith '_' [date, clock, sequence] := by
      simpa [stamp, Text.joinWith] using htext
    have hpieces : Text.pieces '_' text = [date, clock, sequence] := by
      rw [hjoin]
      exact Text.pieces_joinWith (by simp) (by simp [hdate, hclock, hsequence])
    have hall := h.isDigit
    simp only [List.mem_append] at hall
    simp [isStamp, hpieces, h.date_length, h.clock_length, h.five_le_length]
    exact ⟨⟨fun c hc => hall c (.inl (.inl hc)), fun c hc => hall c (.inl (.inr hc))⟩,
      fun c hc => hall c (.inr hc)⟩

/-- A name belongs to a series exactly if it is the stem, a stamp and the suffix. -/
theorem holds_iff {s : Series} {name : List Char} :
    s.holds name = true ↔ ∃ date clock sequence, Digits date clock sequence ∧
      name = s.stem ++ stamp date clock sequence ++ s.suffix := by
  have hcut : ∀ text, (Text.afterStart? (s.stem ++ ['_']) name).bind
      (Text.beforeEnd? s.suffix) = some text ↔ name = s.stem ++ '_' :: text ++ s.suffix := by
    intro text
    simp [Option.bind_eq_some_iff, Text.afterStart?_eq_some_iff, Text.beforeEnd?_eq_some_iff]
  constructor
  · intro h
    unfold holds at h
    split at h
    · next text htext =>
      obtain ⟨date, clock, sequence, hdigits, hstamp⟩ := isStamp_iff.1 h
      exact ⟨date, clock, sequence, hdigits, hstamp ▸ (hcut text).1 htext⟩
    · cases h
  · rintro ⟨date, clock, sequence, hdigits, hname⟩
    have htext := (hcut (date ++ '_' :: clock ++ '_' :: sequence)).2 (by rw [hname]; rfl)
    unfold holds
    rw [htext]
    exact isStamp_iff.2 ⟨date, clock, sequence, hdigits, rfl⟩

end Series

/-! ## The names that are made -/

/-- The date and the time of day of an archive's stamp have two digits for each field. -/
theorem Civil.InRange.digits {c : Civil} (h : c.InRange) (n : Nat) :
    Series.Digits (c.dateFields []) (c.clockFields []) (padded 5 n) := by
  refine ⟨h.length_dateFields [], h.length_clockFields [], Decimal.le_length_padded 5 n,
    fun d hd => ?_⟩
  simp only [dateFields, clockFields, List.append_nil, List.mem_append] at hd
  rcases hd with (((hd | hd) | hd) | ((hd | hd) | hd)) | hd <;>
    exact Decimal.isDigit_of_mem_padded hd

namespace Series

/-- The name of an archive is its stem, the stamp and the suffix. -/
theorem name_eq (s : Series) (c : Civil) (n : Nat) :
    s.name c n = s.stem ++ stamp (c.dateFields []) (c.clockFields []) (padded 5 n) ++ s.suffix := by
  simp [name, stamp, Civil.archiveStamp_eq]

/-- The names that are made for a series belong to it. -/
theorem holds_name (s : Series) (time : LocalTime) (n : Nat) :
    s.holds (s.name time.civil n) = true :=
  holds_iff.2 ⟨_, _, _, time.inRange_civil.digits n, s.name_eq _ n⟩

variable {p q : Path} {file other name : List Char}

/-- The extension of an archive's name is that of the file, and what stands before it is
the file's stem with the stamp. -/
theorem splitExtension_archive (h : p.fileName? = some file) {date clock sequence : List Char}
    (hdigits : Digits date clock sequence) :
    Path.splitExtension (p.stem ++ stamp date clock sequence ++ p.suffix) =
      (p.stem ++ stamp date clock sequence, (Path.splitExtension file).2) := by
  rw [Path.stem_eq h, Path.suffix_eq h]
  exact Path.splitExtension_insert file (by simp [stamp]) hdigits.dot_not_mem

/-- What follows the last underscore, and what stands before it. -/
theorem append_underscore_inj {front front' rest rest' : List Char} (h : '_' ∉ rest)
    (h' : '_' ∉ rest') (heq : front ++ '_' :: rest = front' ++ '_' :: rest') :
    front = front' ∧ rest = rest' := by
  have hpieces := congrArg (Text.pieces '_') (congrArg List.reverse heq)
  simp only [List.reverse_append, List.reverse_cons, List.append_assoc, List.cons_append,
    List.nil_append] at hpieces
  rw [Text.pieces_append (by simpa using h), Text.pieces_append (by simpa using h'),
    List.cons.injEq, List.reverse_inj] at hpieces
  obtain rfl := hpieces.1
  exact ⟨List.append_cancel_right heq, rfl⟩

/-- The stem can be read off a stem with a stamp. -/
theorem stem_unique {stem stem' date clock sequence date' clock' sequence' : List Char}
    (h : Digits date clock sequence) (h' : Digits date' clock' sequence')
    (heq : stem ++ stamp date clock sequence = stem' ++ stamp date' clock' sequence') :
    stem = stem' := by
  obtain ⟨hdate, hclock, hsequence⟩ := h.not_mem (c := '_') rfl
  obtain ⟨hdate', hclock', hsequence'⟩ := h'.not_mem (c := '_') rfl
  simp only [stamp, ← List.append_assoc] at heq
  obtain ⟨heq, -⟩ := append_underscore_inj hsequence hsequence' heq
  obtain ⟨heq, -⟩ := append_underscore_inj hclock hclock' heq
  exact (append_underscore_inj hdate hdate' heq).1

/-- A name belongs to the series of one file name at most. -/
theorem fileName_unique (hp : p.fileName? = some file) (hq : q.fileName? = some other)
    (hheld : (ofPath p).holds name = true) (hheld' : (ofPath q).holds name = true) :
    file = other := by
  obtain ⟨date, clock, sequence, hdigits, rfl⟩ := holds_iff.1 hheld
  obtain ⟨date', clock', sequence', hdigits', heq⟩ := holds_iff.1 hheld'
  have hsplit := splitExtension_archive hp hdigits
  have hsplit' := splitExtension_archive hq hdigits'
  simp only [ofPath] at heq
  rw [heq, hsplit', Prod.mk.injEq] at hsplit
  have hstem := stem_unique hdigits' hdigits hsplit.1
  rw [← Path.stem_append_suffix hp, ← Path.stem_append_suffix hq, Path.suffix_eq hp,
    Path.suffix_eq hq, hstem, hsplit.2]

/-- A dump file is no archive of its own. -/
theorem not_holds_fileName (h : p.fileName? = some file) : (ofPath p).holds file = false := by
  refine Bool.eq_false_iff.2 fun hheld => ?_
  obtain ⟨date, clock, sequence, hdigits, heq⟩ := holds_iff.1 hheld
  have hlen := congrArg List.length (heq.symm.trans (Path.stem_append_suffix h).symm)
  have := hdigits.length_stamp
  simp only [ofPath, List.length_append] at hlen
  omega

theorem length_name (s : Series) (time : LocalTime) (n : Nat) :
    20 ≤ (s.name time.civil n).length := by
  have := (time.inRange_civil.digits n).length_stamp
  rw [name_eq]
  simp only [List.length_append]
  omega

/-- An archive has the name made for it, in the directory of the dump file. -/
theorem splitLast?_archive (h : p.fileName? = some file) (time : LocalTime) (n : Nat) :
    (p.archive time n).splitLast? =
      p.parent?.map fun directory => (directory, (ofPath p).name time.civil n) := by
  have hfile : '/' ∉ file := Path.slash_not_mem h
  rw [← Path.stem_append_suffix h] at hfile
  simp only [List.mem_append, not_or] at hfile
  obtain ⟨hdate, hclock, hsequence⟩ :=
    (time.inRange_civil.digits n).not_mem (c := '/') rfl
  refine Path.splitLast?_withFileName (by simp [h]) ?_ ?_
  · rw [name_eq]
    simp [stamp, ofPath, hfile, hdate, hclock, hsequence]
  · exact Path.isVoid_of_length (Nat.le_trans (by omega) ((ofPath p).length_name time n))

theorem fileName?_archive (h : p.fileName? = some file) (time : LocalTime) (n : Nat) :
    (p.archive time n).fileName? = some ((ofPath p).name time.civil n) := by
  have hsplit := splitLast?_archive h time n
  have hlen := (ofPath p).length_name time n
  obtain ⟨directory, hparent⟩ : ∃ directory, p.parent? = some directory := by
    unfold Path.fileName? at h
    unfold Path.parent?
    split at h
    · next directory name heq => exact ⟨directory, by rw [heq]; rfl⟩
    · cases h
  rw [hparent, Option.map_some] at hsplit
  simp only [Path.fileName?, hsplit]
  refine if_neg ?_
  simp only [Bool.or_eq_true, decide_eq_true_eq]
  rintro (heq | heq) <;> rw [heq] at hlen <;> simp at hlen

theorem parent?_archive (h : p.fileName? = some file) (time : LocalTime) (n : Nat) :
    (p.archive time n).parent? = p.parent? := by
  rw [Path.parent?, splitLast?_archive h, Option.map_map]
  exact Option.map_id'

/-- Archiving and removing agree on names. The archives of a dump file lie in the
directory that is searched for them and belong to its series, which holds just the names
of the form `<stem>_<six digits>_<six digits>_<five or more digits><ext>`; the dump file
is not one of them, and no archive of a file with another name is. -/
theorem archives_recognised {p : Path} {file : List Char} (h : p.fileName? = some file) :
    (∀ time n, ∃ name, (p.archive time n).fileName? = some name ∧
        (ofPath p).holds name = true ∧ (p.archive time n).directory = p.directory) ∧
      (∀ s : Series, ∀ name, s.holds name = true ↔ ∃ date clock sequence,
        Digits date clock sequence ∧
          name = s.stem ++ '_' :: date ++ '_' :: clock ++ '_' :: sequence ++ s.suffix) ∧
      (ofPath p).holds file = false ∧
      ∀ (q : Path) (other : List Char), q.fileName? = some other → other ≠ file →
        ∀ time n name, (q.archive time n).fileName? = some name →
          (ofPath p).holds name = false := by
  refine ⟨fun time n => ⟨_, fileName?_archive h time n, holds_name _ time n, ?_⟩,
    fun s name => ?_, not_holds_fileName h, fun q other hq hne time n name hname => ?_⟩
  · rw [Path.directory, parent?_archive h]
    rfl
  · rw [holds_iff]
    simp [stamp]
  · refine Bool.eq_false_iff.2 fun hheld => hne ?_
    rw [fileName?_archive hq, Option.some.injEq] at hname
    exact fileName_unique hq h (hname ▸ holds_name _ time n) hheld

/-- A dump file whose stem looks like an archive of another dump file. -/
theorem archives_recognised_of_nested :
    let p : Path := ⟨"logs/app_240307_090502_00001.log"⟩
    let q : Path := ⟨"logs/app.log"⟩
    p.fileName? = some "app_240307_090502_00001.log".toList ∧
      (ofPath q).holds "app_240307_090502_00001.log".toList = true ∧
      ∀ time n name, (q.archive time n).fileName? = some name → (ofPath p).holds name = false := by
  intro p q
  have hp : p.fileName? = some "app_240307_090502_00001.log".toList := by decide +kernel
  exact ⟨hp, by decide +kernel, (archives_recognised hp).2.2.2 q "app.log".toList
    (by decide +kernel) (by decide)⟩

end Series

end LogPipeline
