import LogPipeline.Proofs.Archive.Attempts
import Mathlib.Data.List.Induction

/-!
# Archive names in the order of time

Digits of one length are in the order of the numbers they show (`lt_of_value_lt`), and within
a century a date and a time of day show greater numbers when the clock has gone on
(`Civil.numbers_lt`). So the archive names of a writer are in the order in which the archives
were made, as long as the local clock does not go back, the century is the same and the
sequence numbers do not start again within a second (`Scribe.names_in_order`). It is the local
clock that counts: where it is put back at the end of summer, names go back with it.
-/

namespace LogPipeline

open Decimal (padded)

/-! ## Texts of one length -/

/-- The first part in which two texts differ decides on their order. -/
theorem append_lt_append_iff {front front' rest rest' : List Char}
    (h : front.length = front'.length) :
    front ++ rest < front' ++ rest' ↔ front < front' ∨ front = front' ∧ rest < rest' := by
  induction front generalizing front' with
  | nil =>
    obtain rfl := List.length_eq_zero_iff.1 h.symm
    simp
  | cons c front ih =>
    obtain ⟨c', front', rfl⟩ := List.exists_cons_of_length_eq_add_one h.symm
    rw [List.cons_append, List.cons_append, List.cons_lt_cons_iff, List.cons_lt_cons_iff,
      ih (Nat.succ.inj h), List.cons.injEq]
    grind

namespace Decimal

theorem value_concat (cs : List Char) (d : Char) :
    value (cs ++ [d]) = 10 * value cs + digitValue d := by
  simp [value, List.foldl_append]

/-- Two more digits. -/
theorem value_append_two (cs : List Char) {ds : List Char} (h : ds.length = 2) :
    value (cs ++ ds) = 100 * value cs + value ds := by
  obtain ⟨c, d, rfl⟩ : ∃ c d, ds = [c, d] := by
    match ds, h with
    | [c, d], _ => exact ⟨c, d, rfl⟩
  rw [show cs ++ [c, d] = (cs ++ [c]) ++ [d] by simp, show [c, d] = [c] ++ [d] from rfl,
    value_concat, value_concat, value_concat]
  simp only [value, List.foldl_cons, List.foldl_nil]
  omega

theorem digitValue_lt {c : Char} (h : isDigit c = true) : digitValue c < 10 := by
  simp only [isDigit, Bool.and_eq_true, decide_eq_true_eq] at h
  unfold digitValue
  omega

/-- A digit that shows less comes first. -/
theorem lt_of_digitValue_lt {c d : Char} (hc : isDigit c = true)
    (h : digitValue c < digitValue d) : c < d := by
  simp only [isDigit, Bool.and_eq_true, decide_eq_true_eq] at hc
  unfold digitValue at h
  have hlt : c.toNat < d.toNat := by omega
  exact hlt

theorem eq_of_digitValue_eq {c d : Char} (hc : isDigit c = true) (hd : isDigit d = true)
    (h : digitValue c = digitValue d) : c = d := by
  simp only [isDigit, Bool.and_eq_true, decide_eq_true_eq] at hc hd
  unfold digitValue at h
  exact Char.toNat_inj.1 (by omega)

/-- Of two texts of digits of one length, the first is less and shows less, or they are the
same, or the second shows less. -/
theorem value_cases {cs ds : List Char} (hcs : ∀ c ∈ cs, isDigit c = true)
    (hds : ∀ d ∈ ds, isDigit d = true) (hlen : cs.length = ds.length) :
    cs < ds ∧ value cs < value ds ∨ cs = ds ∨ value ds < value cs := by
  induction cs using List.reverseRecOn generalizing ds with
  | nil => exact .inr (.inl (List.length_eq_zero_iff.1 hlen.symm).symm)
  | append_singleton cs c ih =>
    obtain ⟨ds, d, rfl⟩ : ∃ ds' d, ds = ds' ++ [d] := by
      rcases List.eq_nil_or_concat ds with rfl | ⟨ds', d, rfl⟩
      · simp at hlen
      · exact ⟨ds', d, List.concat_eq_append⟩
    rw [List.forall_mem_append, List.forall_mem_singleton] at hcs hds
    rw [List.length_append, List.length_append] at hlen
    have hlen' : cs.length = ds.length := Nat.add_right_cancel hlen
    have hc := digitValue_lt hcs.2
    have hd := digitValue_lt hds.2
    rw [value_concat, value_concat, append_lt_append_iff hlen']
    -- the digits before the last ones decide, unless they are the same
    rcases ih hcs.1 hds.1 hlen' with ⟨hlt, hvalue⟩ | rfl | hvalue
    · exact .inl ⟨.inl hlt, by omega⟩
    · rcases Nat.lt_trichotomy (digitValue c) (digitValue d) with hlt | heq | hgt
      · refine .inl ⟨.inr ⟨rfl, List.cons_lt_cons_iff.2 (.inl ?_)⟩, by omega⟩
        exact lt_of_digitValue_lt hcs.2 hlt
      · exact .inr (.inl (by rw [eq_of_digitValue_eq hcs.2 hds.2 heq]))
      · exact .inr (.inr (by omega))
    · exact .inr (.inr (by omega))

/-- Digits of one length are in the order of the numbers they show. -/
theorem lt_of_value_lt {cs ds : List Char} (hcs : ∀ c ∈ cs, isDigit c = true)
    (hds : ∀ d ∈ ds, isDigit d = true) (hlen : cs.length = ds.length) (h : value cs < value ds) :
    cs < ds := by
  rcases value_cases hcs hds hlen with ⟨hlt, -⟩ | rfl | hgt
  · exact hlt
  · exact absurd h (Nat.lt_irrefl _)
  · exact absurd h (Nat.lt_asymm hgt)

end Decimal

/-! ## Dates in order -/

namespace Civil

/-- The number that the digits of a date show. -/
def dateNumber (c : Civil) : Nat := 10000 * c.yearOfCentury + 100 * c.month + c.day

/-- The number that the digits of a time of day show. -/
def clockNumber (c : Civil) : Nat := 10000 * c.hour + 100 * c.minute + c.second

namespace InRange

variable {c : Civil}

theorem value_dateFields (h : c.InRange) : Decimal.value (c.dateFields []) = c.dateNumber := by
  have hmonth := h.month_le
  have hday := h.day_le
  rw [dateFields, List.append_nil, List.append_nil,
    Decimal.value_append_two _ (Decimal.length_padded_two (show c.day < 100 by omega)),
    Decimal.value_append_two _ (Decimal.length_padded_two (show c.month < 100 by omega)),
    Decimal.value_padded, Decimal.value_padded, Decimal.value_padded, dateNumber]
  omega

theorem value_clockFields (h : c.InRange) : Decimal.value (c.clockFields []) = c.clockNumber := by
  have hminute := h.minute_lt
  have hsecond := h.second_lt
  rw [clockFields, List.append_nil, List.append_nil,
    Decimal.value_append_two _ (Decimal.length_padded_two (show c.second < 100 by omega)),
    Decimal.value_append_two _ (Decimal.length_padded_two (show c.minute < 100 by omega)),
    Decimal.value_padded, Decimal.value_padded, Decimal.value_padded, clockNumber]
  omega

end InRange

/-- The number that the digits of the month and the day show. -/
def dayNumber (leap : Bool) (dayOfYear : Nat) : Nat :=
  100 * monthOf leap dayOfYear +
    (dayOfYear - (monthStarts leap).getD (monthOf leap dayOfYear - 1) 0 + 1)

theorem dayNumber_lt_succ (leap : Bool) {day : Nat} (h : day < 364 + leap.toNat) :
    dayNumber leap day < dayNumber leap (day + 1) := by
  have key : ∀ leap : Bool, ∀ day < 364 + leap.toNat,
      dayNumber leap day < dayNumber leap (day + 1) := by
    decide +kernel
  exact key leap day h

/-- The days of a year are in order. -/
theorem dayNumber_lt (leap : Bool) {day day' : Nat} (hlt : day < day')
    (h : day' < 365 + leap.toNat) : dayNumber leap day < dayNumber leap day' := by
  induction hlt with
  | refl => exact dayNumber_lt_succ leap (by omega)
  | step _ ih => exact Nat.lt_trans (ih (by omega)) (dayNumber_lt_succ leap (by omega))

/-- The day of the year that a clock shows. -/
def dayOfYear (t : Seconds) : Nat :=
  (t / 86400 + unixDay - daysBefore (yearOf (t / 86400 + unixDay))).toNat

theorem dayOfYear_lt (t : Seconds) : dayOfYear t < 365 + (isLeap (ofSeconds t).year).toNat := by
  obtain ⟨-, hlt⟩ := daysBefore_yearOf (t / 86400 + unixDay)
  rw [daysBefore_succ] at hlt
  show (t / 86400 + unixDay - daysBefore (yearOf (t / 86400 + unixDay))).toNat <
    365 + (isLeap (yearOf (t / 86400 + unixDay))).toNat
  split at hlt <;> next hleap => simp [hleap]; omega

theorem dateNumber_ofSeconds (t : Seconds) :
    (ofSeconds t).dateNumber = 10000 * (ofSeconds t).yearOfCentury +
      dayNumber (isLeap (ofSeconds t).year) (dayOfYear t) := Nat.add_assoc ..

theorem year_le_of_daysBefore_lt {year year' : Int} (h : daysBefore year < daysBefore (year' + 1)) :
    year ≤ year' := by
  unfold daysBefore at h
  omega

/-- The seconds of a day are in order. -/
theorem clockNumber_lt {clock clock' : Nat} (h : clock < clock') :
    10000 * (clock / 3600) + 100 * (clock / 60 % 60) + clock % 60 <
      10000 * (clock' / 3600) + 100 * (clock' / 60 % 60) + clock' % 60 := by
  have hour : ∀ n, n / 3600 = n / 60 / 60 := fun n => (Nat.div_div_eq_div_mul n 60 60).symm
  rw [hour, hour]
  omega

/-- Within a century, a clock that shows more seconds shows a greater date, or the same date and a
greater time of day. -/
theorem numbers_lt {t t' : Seconds} (h : t < t')
    (hcentury : (ofSeconds t).year / 100 = (ofSeconds t').year / 100) :
    (ofSeconds t).dateNumber < (ofSeconds t').dateNumber ∨
      (ofSeconds t).dateFields [] = (ofSeconds t').dateFields [] ∧
        (ofSeconds t).clockNumber < (ofSeconds t').clockNumber := by
  obtain hday | hday : t / 86400 = t' / 86400 ∨ t / 86400 < t' / 86400 := by
    dsimp only [Seconds] at *
    omega
  · refine .inr ⟨?_, ?_⟩
    · simp only [dateFields, yearOfCentury, ofSeconds, hday]
    · refine clockNumber_lt ?_
      dsimp only [Seconds] at *
      omega
  · refine .inl ?_
    obtain ⟨hle, -⟩ := daysBefore_yearOf (t / 86400 + unixDay)
    obtain ⟨hle', hlt'⟩ := daysBefore_yearOf (t' / 86400 + unixDay)
    have hyears : (ofSeconds t).year ≤ (ofSeconds t').year := year_le_of_daysBefore_lt (by
      show daysBefore (yearOf _) < daysBefore (yearOf _ + 1)
      dsimp only [Seconds] at *
      omega)
    rw [dateNumber_ofSeconds, dateNumber_ofSeconds]
    rcases Int.lt_or_eq_of_le hyears with hyear | hyear
    · -- a later year of the century, whatever the month and the day
      have hnumber : ∀ t : Seconds, dayNumber (isLeap (ofSeconds t).year) (dayOfYear t) < 10000 :=
        fun t => by
          have hrange := inRange_ofSeconds t
          have := hrange.month_le
          have := hrange.day_le
          show 100 * (ofSeconds t).month + (ofSeconds t).day < 10000
          omega
      have hmore : (ofSeconds t).yearOfCentury < (ofSeconds t').yearOfCentury := by
        unfold yearOfCentury
        omega
      have := hnumber t
      omega
    · have hlater : dayOfYear t < dayOfYear t' := by
        have hsame : yearOf (t / 86400 + unixDay) = yearOf (t' / 86400 + unixDay) := hyear
        unfold dayOfYear
        rw [hsame] at hle ⊢
        dsimp only [Seconds] at *
        omega
      have hnumber := dayNumber_lt (isLeap (ofSeconds t').year) hlater (dayOfYear_lt t')
      simp only [yearOfCentury, hyear]
      omega

end Civil

/-! ## Names in order -/

namespace Series

variable {date clock sequence date' clock' sequence' : List Char}

/-- Stamps are in the order of their dates, then of their times of day and then of their
sequence numbers, whatever follows. -/
theorem stamp_append_lt (h : Digits date clock sequence) (h' : Digits date' clock' sequence')
    (hlt : date < date' ∨ date = date' ∧ (clock < clock' ∨ clock = clock' ∧
      sequence.length = sequence'.length ∧ sequence < sequence')) (suffix : List Char) :
    stamp date clock sequence ++ suffix < stamp date' clock' sequence' ++ suffix := by
  have hdate : ('_' :: date).length = ('_' :: date').length :=
    congrArg (· + 1) (h.date_length.trans h'.date_length.symm)
  have hclock : ('_' :: clock).length = ('_' :: clock').length :=
    congrArg (· + 1) (h.clock_length.trans h'.clock_length.symm)
  have hafter : ∀ {xs ys : List Char}, '_' :: xs < '_' :: ys ↔ xs < ys := by
    simp
  simp only [stamp, List.append_assoc]
  rw [append_lt_append_iff hdate, hafter]
  rcases hlt with hlt | ⟨rfl, hlt⟩
  · exact .inl hlt
  refine .inr ⟨rfl, ?_⟩
  rw [append_lt_append_iff hclock, hafter]
  rcases hlt with hlt | ⟨rfl, hlen, hlt⟩
  · exact .inl hlt
  refine .inr ⟨rfl, ?_⟩
  rw [List.cons_append, List.cons_append, hafter, append_lt_append_iff hlen]
  exact .inl hlt

/-- The name for a later local time of the same century is greater. -/
theorem name_lt_of_later (s : Series) {t t' : LocalTime} (h : t.shown < t'.shown)
    (hcentury : t.civil.year / 100 = t'.civil.year / 100) (n n' : Nat) :
    s.name t.civil n < s.name t'.civil n' := by
  have hrange := t.inRange_civil
  have hrange' := t'.inRange_civil
  have hdigits := hrange.digits n
  have hdigits' := hrange'.digits n'
  rw [name_eq, name_eq, List.append_assoc, List.append_assoc, append_lt_append_iff rfl]
  refine .inr ⟨rfl, stamp_append_lt hdigits hdigits' ?_ s.suffix⟩
  rcases Civil.numbers_lt h hcentury with hdate | ⟨hdate, hclock⟩
  · refine .inl (Decimal.lt_of_value_lt (fun c hc => hdigits.isDigit c (by simp [hc]))
      (fun c hc => hdigits'.isDigit c (by simp [hc]))
      (hdigits.date_length.trans hdigits'.date_length.symm) ?_)
    rwa [hrange.value_dateFields, hrange'.value_dateFields]
  · refine .inr ⟨hdate, .inl (Decimal.lt_of_value_lt (fun c hc => hdigits.isDigit c (by simp [hc]))
      (fun c hc => hdigits'.isDigit c (by simp [hc]))
      (hdigits.clock_length.trans hdigits'.clock_length.symm) ?_)⟩
    rwa [hrange.value_clockFields, hrange'.value_clockFields]

/-- Of two names for one local time, that with the greater sequence number is greater. -/
theorem name_lt_of_number (s : Series) (t : LocalTime) {n n' : Nat} (h : n < n')
    (hlast : n' ≤ lastSequence) : s.name t.civil n < s.name t.civil n' := by
  have hrange := t.inRange_civil
  have hfits : n' < Nat.pow 10 5 := Nat.lt_of_le_of_lt hlast (by decide)
  have hlen : (padded 5 n).length = (padded 5 n').length := by
    rw [Decimal.length_padded (by omega) hfits, Decimal.length_padded (by omega) (Nat.lt_trans h hfits)]
  rw [name_eq, name_eq, List.append_assoc, List.append_assoc, append_lt_append_iff rfl]
  refine .inr ⟨rfl, stamp_append_lt (hrange.digits n) (hrange.digits n') ?_ s.suffix⟩
  refine .inr ⟨rfl, .inr ⟨rfl, hlen, ?_⟩⟩
  refine Decimal.lt_of_value_lt (fun _ => Decimal.isDigit_of_mem_padded)
    (fun _ => Decimal.isDigit_of_mem_padded) hlen ?_
  rwa [Decimal.value_padded, Decimal.value_padded]

end Series

/-! ## The archives of a run -/

namespace Attempt

/-- Whether an attempt makes an archive. -/
def isMade (a : Attempt) : Bool := (a.1.rotate a.2).1.isOk

/-- The file name that an attempt asks for. -/
def name (a : Attempt) : List Char :=
  (Series.ofPath a.1.path).name a.2.localNow.civil a.1.nextSequence

/-- The century that the local clock shows at an attempt, as the years from `100 * century` on. -/
def century (a : Attempt) : Int := a.2.localNow.civil.year / 100

/-- The archives that attempts make, in order. -/
def made (attempts : List Attempt) : List Attempt := attempts.filter isMade

theorem fileName?_archive {a : Attempt} {file : List Char} (h : a.1.path.fileName? = some file) :
    a.archive.fileName? = some a.name :=
  Series.fileName?_archive h a.2.localNow a.1.nextSequence

end Attempt

/-- The local clock does not go back from one archive to the next and stays within a century, and
the sequence numbers do not start again between two archives of the same second. -/
structure Chronological (attempts : List Attempt) : Prop where
  forward : (Attempt.made attempts).Pairwise fun a b => a.2.localNow.shown ≤ b.2.localNow.shown
  century : ∀ a ∈ Attempt.made attempts, ∀ b ∈ Attempt.made attempts, a.century = b.century
  unwrapped : ∀ (j k : Nat) (a b : Attempt), j < k → attempts[j]? = some a →
    attempts[k]? = some b → a.isMade → b.isMade → a.2.localNow.shown = b.2.localNow.shown →
      ∀ (i : Nat) (x : Attempt), j < i → i ≤ k → attempts[i]? = some x → x.1.nextSequence ≠ 1

/-- As long as local clocks are by the same time ahead of the Unix clock, they go on when it
does. -/
theorem Attempt.forward_of_offset {attempts : List Attempt} {offset : Int}
    (hoffset : ∀ a ∈ Attempt.made attempts, a.2.localNow.offset = offset)
    (h : (Attempt.made attempts).Pairwise fun a b => a.2.now.seconds ≤ b.2.now.seconds) :
    (Attempt.made attempts).Pairwise fun a b => a.2.localNow.shown ≤ b.2.localNow.shown := by
  refine h.imp_of_mem fun {a b} ha hb hle => ?_
  rw [LocalTime.shown, LocalTime.shown, hoffset a ha, hoffset b hb]
  exact Int.add_le_add_right hle offset

/-- A second after which clocks in Berlin are put back from three to two: the later name is the
lesser one. -/
example :
    let before : LocalTime := ⟨1729990799, 7200⟩
    let after : LocalTime := ⟨1729990800, 3600⟩
    let s := Series.ofPath ⟨"app.log"⟩
    before.instant < after.instant ∧ s.name after.civil 2 < s.name before.civil 1 := by
  decide +kernel

namespace Scribe

variable {path : Path} {cap : UInt64} {world : World} {ms : List ScribeMove}

/-- Sequence numbers that do not start again grow. -/
theorem nextSequence_lt {j k : Nat} {a b : Attempt} (hjk : j < k)
    (ha : ((new path cap world).attempts ms)[j]? = some a)
    (hb : ((new path cap world).attempts ms)[k]? = some b)
    (h : ∀ (i : Nat) (x : Attempt), j < i → i ≤ k →
      ((new path cap world).attempts ms)[i]? = some x → x.1.nextSequence ≠ 1) :
    a.1.nextSequence < b.1.nextSequence ∧ b.1.nextSequence ≤ lastSequence := by
  rw [nextSequence_attempts ha, nextSequence_attempts hb]
  refine ⟨?_, Nat.mod_lt k (by decide)⟩
  refine Classical.byContradiction fun hle => ?_
  -- the last attempt up to the later one that takes the number one comes after the earlier one
  have hstart : j < k - k % lastSequence := by
    unfold lastSequence at hle ⊢
    omega
  obtain ⟨hk, -⟩ := List.getElem?_eq_some_iff.1 hb
  have hx := List.getElem?_eq_getElem (l := (new path cap world).attempts ms)
    (i := k - k % lastSequence) (by omega)
  refine h _ _ hstart (Nat.sub_le ..) hx ?_
  rw [nextSequence_attempts hx]
  unfold lastSequence
  omega

/-- In chronological order, archives under one path have ever greater names. -/
theorem names_in_order (h : Chronological ((new path cap world).attempts ms))
    (hpath : ∀ a ∈ (new path cap world).attempts ms, a.1.path = path) :
    ((Attempt.made ((new path cap world).attempts ms)).map Attempt.name).Pairwise (· < ·) := by
  have hforward := h.forward
  have hcentury := h.century
  rw [List.pairwise_map]
  unfold Attempt.made at hforward hcentury ⊢
  rw [List.pairwise_filter, List.pairwise_iff_getElem] at hforward ⊢
  intro j k hj hk hjk ha hb
  have hpathj := hpath _ (List.getElem_mem hj)
  have hpathk := hpath _ (List.getElem_mem hk)
  unfold Attempt.name
  rw [hpathj, hpathk]
  rcases Int.lt_or_eq_of_le (hforward j k hj hk hjk ha hb) with hlater | hsame
  · exact Series.name_lt_of_later _ hlater
      (hcentury _ (List.mem_filter.2 ⟨List.getElem_mem hj, ha⟩) _
        (List.mem_filter.2 ⟨List.getElem_mem hk, hb⟩)) _ _
  · have hj' := List.getElem?_eq_getElem hj
    have hk' := List.getElem?_eq_getElem hk
    obtain ⟨hless, hlast⟩ :=
      nextSequence_lt hjk hj' hk' (h.unwrapped j k _ _ hjk hj' hk' ha hb hsame)
    rw [LocalTime.civil, hsame, ← LocalTime.civil]
    exact Series.name_lt_of_number _ _ hless hlast

end Scribe

end LogPipeline
