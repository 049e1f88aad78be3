import LogPipeline.Time.Civil
/-!
# The calendar

A clock shows a date that exists: its year is the one its day lies in
(`daysBefore_yearOf`), and its month, day and time of day are in their ranges
(`inRange_ofSeconds`). So each field of a stamp takes two digits, and stamps have a
fixed width.
-/

namespace LogPipeline

open Decimal (isDigit padded)

namespace Civil

/-- The fields of a date and time are in their ranges. -/
structure InRange (c : Civil) : Prop where
  one_le_month : 1 ≤ c.month
  month_le : c.month ≤ 12
  one_le_day : 1 ≤ c.day
  day_le : c.day ≤ 31
  hour_lt : c.hour < 24
  minute_lt : c.minute < 60
  second_lt : c.second < 60

theorem daysBefore_succ (year : Int) :
    daysBefore (year + 1) = daysBefore year + 365 + if isLeap year then 1 else 0 := by
  simp only [daysBefore, isLeap, Bool.and_eq_true, Bool.or_eq_true, decide_eq_true_eq]
  split <;> omega

/-- The estimate of the year is off by at most one. -/
theorem daysBefore_yearOf (day : Int) :
    daysBefore (yearOf day) ≤ day ∧ day < daysBefore (yearOf day + 1) := by
  unfold yearOf
  simp only
  split
  · next h =>
    refine ⟨?_, by simpa using h⟩
    simp only [daysBefore] at *
    omega
  · next h =>
    split
    · next h' =>
      refine ⟨h', ?_⟩
      simp only [daysBefore] at *
      omega
    · next h' => exact ⟨Int.not_lt.1 h, Int.not_le.1 h'⟩

/-- A day of the year lies in one of the twelve months, and within it. -/
theorem monthOf_inRange (leap : Bool) {day : Nat} (h : day < 365 + leap.toNat) :
    1 ≤ monthOf leap day ∧ monthOf leap day ≤ 12 ∧
      day - (monthStarts leap).getD (monthOf leap day - 1) 0 + 1 ≤ 31 := by
  have key : ∀ leap : Bool, ∀ day < 365 + leap.toNat, 1 ≤ monthOf leap day ∧
      monthOf leap day ≤ 12 ∧
        day - (monthStarts leap).getD (monthOf leap day - 1) 0 + 1 ≤ 31 := by
    decide +kernel
  exact key leap day h

theorem inRange_ofSeconds (t : Seconds) : (ofSeconds t).InRange := by
  obtain ⟨hle, hlt⟩ := daysBefore_yearOf (t / 86400 + unixDay)
  rw [daysBefore_succ] at hlt
  have hday : (t / 86400 + unixDay - daysBefore (yearOf (t / 86400 + unixDay))).toNat <
      365 + (isLeap (yearOf (t / 86400 + unixDay))).toNat := by
    split at hlt <;> next hleap => simp [hleap]; omega
  obtain ⟨hone, hmonth, hday⟩ := monthOf_inRange _ hday
  have hclock : (t % 86400).toNat < 86400 := by omega
  exact ⟨hone, hmonth, Nat.succ_le_succ (Nat.zero_le _), hday, by simp only [ofSeconds]; omega,
    Nat.mod_lt _ (by omega), Nat.mod_lt _ (by omega)⟩

theorem yearOfCentury_lt (c : Civil) : c.yearOfCentury < 100 := by
  unfold yearOfCentury
  omega

/-! ## Stamps -/

/-- The date in two-digit fields, with a separator between them. -/
def dateFields (sep : List Char) (c : Civil) : List Char :=
  padded 2 c.yearOfCentury ++ sep ++ padded 2 c.month ++ sep ++ padded 2 c.day

/-- The time of day in two-digit fields, with a separator between them. -/
def clockFields (sep : List Char) (c : Civil) : List Char :=
  padded 2 c.hour ++ sep ++ padded 2 c.minute ++ sep ++ padded 2 c.second

theorem toList_lineStamp (c : Civil) :
    c.lineStamp.toList = c.dateFields ['/'] ++ ' ' :: c.clockFields [':'] := by
  simp [lineStamp, stampLayout, format, field?, dateFields, clockFields]

theorem archiveStamp_eq (c : Civil) :
    c.archiveStamp = c.dateFields [] ++ '_' :: c.clockFields [] := by
  simp [archiveStamp, archiveLayout, format, field?, dateFields, clockFields]

/-- Each field of a date takes two digits. -/
theorem InRange.length_dateFields {c : Civil} (h : c.InRange) (sep : List Char) :
    (c.dateFields sep).length = 6 + 2 * sep.length := by
  have := h.month_le
  have := h.day_le
  simp only [dateFields, List.length_append, Decimal.length_padded_two c.yearOfCentury_lt,
    Decimal.length_padded_two (show c.month < 100 by omega),
    Decimal.length_padded_two (show c.day < 100 by omega)]
  omega

/-- Each field of a time of day takes two digits. -/
theorem InRange.length_clockFields {c : Civil} (h : c.InRange) (sep : List Char) :
    (c.clockFields sep).length = 6 + 2 * sep.length := by
  have := h.hour_lt
  have := h.minute_lt
  have := h.second_lt
  simp only [clockFields, List.length_append,
    Decimal.length_padded_two (show c.hour < 100 by omega),
    Decimal.length_padded_two (show c.minute < 100 by omega),
    Decimal.length_padded_two (show c.second < 100 by omega)]
  omega

end Civil

theorem LocalTime.inRange_civil (t : LocalTime) : t.civil.InRange :=
  Civil.inRange_ofSeconds t.shown

end LogPipeline
