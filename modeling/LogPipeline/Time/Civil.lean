import LogPipeline.Decimal.Digits
/-!
# Civil time

Instants as seconds of the Unix clock, and what a clock at some place shows at an
instant: a date of the proleptic Gregorian calendar and a time of day. Two texts
are written of it, by the layouts below: the stamp inside a line and the stamp
inside an archive name. Years are written by their last two digits, counted from
the century below them, also before year zero.
-/

namespace LogPipeline

open Decimal (padded)

/-- Seconds since a clock has shown the beginning of 1970. -/
abbrev Seconds := Int

/-- Nanoseconds since the first of January 1970. -/
abbrev Nanos := Int

def Nanos.seconds (t : Nanos) : Seconds := t / 1000000000

structure Civil where
  year : Int
  month : Nat
  day : Nat
  hour : Nat
  minute : Nat
  second : Nat
  deriving DecidableEq, Repr

namespace Civil

/-- Days from the first of January of year zero to that of another year. -/
def daysBefore (year : Int) : Int :=
  365 * year + (year + 3) / 4 - (year + 99) / 100 + (year + 399) / 400

/-- The days between the first of January of year zero and that of 1970. -/
def unixDay : Int := 719528

def isLeap (year : Int) : Bool :=
  year % 4 = 0 && (year % 100 ≠ 0 || year % 400 = 0)

/-- The days of a year before each of its months. -/
def monthStarts (leap : Bool) : List Nat :=
  let one := if leap then 1 else 0
  [0, 31, 59 + one, 90 + one, 120 + one, 151 + one, 181 + one, 212 + one, 243 + one, 273 + one,
   304 + one, 334 + one]

/-- The year a day lies in: an estimate from the mean length of a year, mended
by at most one. -/
def yearOf (day : Int) : Int :=
  let guess := day * 400 / 146097
  if day < daysBefore guess then guess - 1
  else if daysBefore (guess + 1) ≤ day then guess + 1
  else guess

/-- The month a day of the year lies in, counted from one: the number of months
that have begun. -/
def monthOf (leap : Bool) (dayOfYear : Nat) : Nat :=
  (monthStarts leap).countP (· ≤ dayOfYear)

/-- What a clock shows. -/
def ofSeconds (t : Seconds) : Civil :=
  let day := t / 86400 + unixDay
  let clock := (t % 86400).toNat
  let year := yearOf day
  let leap := isLeap year
  let dayOfYear := (day - daysBefore year).toNat
  let month := monthOf leap dayOfYear
  { year, month
    day := dayOfYear - (monthStarts leap).getD (month - 1) 0 + 1
    hour := clock / 3600
    minute := clock / 60 % 60
    second := clock % 60 }

def toSeconds (c : Civil) : Seconds :=
  (daysBefore c.year + (monthStarts (isLeap c.year)).getD (c.month - 1) 0 + (c.day : Int) - 1
    - unixDay) * 86400 + c.hour * 3600 + c.minute * 60 + c.second

def yearOfCentury (c : Civil) : Nat := (c.year % 100).toNat

/-- The field that a letter of a layout stands for. -/
def field? (c : Civil) : Char → Option Nat
  | 'y' => some c.yearOfCentury
  | 'm' => some c.month
  | 'd' => some c.day
  | 'H' => some c.hour
  | 'M' => some c.minute
  | 'S' => some c.second
  | _ => none

/-- Writes a layout: a percent sign and a letter stand for a field, in two digits, and
everything else for itself. -/
def format (c : Civil) : List Char → List Char
  | [] => []
  | '%' :: letter :: layout =>
    match c.field? letter with
    | some n => padded 2 n ++ c.format layout
    | none => '%' :: letter :: c.format layout
  | x :: layout => x :: c.format layout

end Civil

/-! ## Local time -/

/-- An instant, and by how many seconds the clock at some place is ahead of the Unix
clock then. -/
structure LocalTime where
  instant : Seconds
  offset : Int
  deriving DecidableEq, Repr

namespace LocalTime

/-- An instant where the clock is the Unix clock. -/
def utc (t : Seconds) : LocalTime := ⟨t, 0⟩

/-- The seconds that the clock at the place shows. -/
def shown (t : LocalTime) : Seconds := t.instant + t.offset

def civil (t : LocalTime) : Civil := .ofSeconds t.shown

end LocalTime

/-! ## Stamps -/

/-- The layout of the stamp of a line. -/
def stampLayout : String := "%y/%m/%d %H:%M:%S"

/-- The layout of the stamp of an archive. -/
def archiveLayout : String := "%y%m%d_%H%M%S"

def Civil.lineStamp (c : Civil) : String := String.ofList (c.format stampLayout.toList)

def Civil.archiveStamp (c : Civil) : List Char := c.format archiveLayout.toList

end LogPipeline
