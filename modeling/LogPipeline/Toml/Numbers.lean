import LogPipeline.Decimal.Digits
import LogPipeline.Text.Hex
import LogPipeline.Toml.Basic
/-!
# Numbers, dates and times in TOML

Integers are written in decimal, or in hexadecimal, octal or binary after a
prefix, with single underscores allowed between digits, and fit 64 bits.
Floating point numbers and dates are checked for their form and range; their
values are not kept.
-/

namespace LogPipeline.Toml

open Decimal (isDigit digitValue)

/-- The digits of a run in which single underscores may stand between digits,
and the rest. An underscore that no digit follows ends the text's being one. -/
def readGrouped (isDigit : Char → Bool) : List Char → Option (List Char × List Char)
  | [] => some ([], [])
  | '_' :: c :: rest =>
    if isDigit c then (readGrouped isDigit rest).map fun (ds, rest) => (c :: ds, rest) else none
  | c :: rest =>
    if isDigit c then (readGrouped isDigit rest).map fun (ds, rest) => (c :: ds, rest)
    else if c = '_' then none
    else some ([], c :: rest)

/-- Digits with underscores between them, at least one. -/
def readDigits (isDigit : Char → Bool) : List Char → Option (List Char × List Char)
  | c :: rest =>
    if isDigit c then (readGrouped isDigit rest).map fun (ds, rest) => (c :: ds, rest) else none
  | [] => none

/-- Whether a minus, or any sign, stands in front, and the text after it. -/
def readSign : List Char → Bool × Bool × List Char
  | '-' :: rest => (true, true, rest)
  | '+' :: rest => (false, true, rest)
  | cs => (false, false, cs)

/-- Decimal digits of a whole number: a zero alone, or digits that do not begin
with one. -/
def readWhole : List Char → Option (List Char × List Char)
  | '0' :: rest => some (['0'], rest)
  | cs => readDigits isDigit cs

/-- An integer of 64 bits. -/
def integer? (i : Int) : Option Toml :=
  if -(Nat.pow 2 63 : Int) ≤ i && i < Nat.pow 2 63 then some (.integer i) else none

/-- Digits in a base after a prefix. -/
def readBased (base : Nat) (cs : List Char) : Option (Toml × List Char) :=
  let isDigit (c : Char) : Bool :=
    match Text.hexValue? c with
    | some d => d < base
    | none => false
  match readDigits isDigit cs with
  | some (ds, rest) =>
    let n := ds.foldl (fun n c => base * n + (Text.hexValue? c).getD 0) 0
    (integer? n).map fun v => (v, rest)
  | none => none

def readInteger (cs : List Char) : Option (Toml × List Char) :=
  match cs with
  | '0' :: 'x' :: rest => readBased 16 rest
  | '0' :: 'o' :: rest => readBased 8 rest
  | '0' :: 'b' :: rest => readBased 2 rest
  | _ =>
    let (negative, _, rest) := readSign cs
    match readWhole rest with
    | some (ds, rest) =>
      let n : Int := Decimal.value ds
      (integer? (if negative then -n else n)).map fun v => (v, rest)
    | none => none

/-- The digits after a point, or none. -/
def readFraction : List Char → Option (List Char × List Char)
  | '.' :: rest => readDigits isDigit rest
  | cs => some ([], cs)

/-- The exponent after its letter, or zero. -/
def readExponent : List Char → Option (Int × Bool × List Char)
  | c :: rest =>
    if c = 'e' || c = 'E' then
      let (negative, _, rest) := readSign rest
      (readDigits isDigit rest).map fun (ds, rest) =>
        let n : Int := Decimal.value ds
        (if negative then -n else n, true, rest)
    else some (0, false, c :: rest)
  | [] => some (0, false, [])

/-- Whether the decimal `m · 10^e` is too great for a floating point number of
64 bits: not less than the middle between the greatest one and the next power
of two. -/
def overflows (m : Nat) (e : Int) : Bool :=
  let size : Int := (Decimal.digits m).length + e
  if m = 0 || size < 300 then false
  else if 400 < size then true
  else (Nat.pow 2 1024 - Nat.pow 2 970) * Nat.pow 10 (-e).toNat ≤ m * Nat.pow 10 e.toNat

/-- A floating point number: digits with a fraction, an exponent or both, or
one of the names of infinity and of what is no number. -/
def readFloat (cs : List Char) : Option (Toml × List Char) :=
  let (negative, _, rest) := readSign cs
  match rest with
  | 'i' :: 'n' :: 'f' :: rest => some (.float, rest)
  | 'n' :: 'a' :: 'n' :: rest => some (.float, rest)
  | _ =>
    match readWhole rest with
    | none => none
    | some (whole, rest) =>
      match readFraction rest with
      | none => none
      | some (fraction, rest) =>
        match readExponent rest with
        | none => none
        | some (exponent, hasExponent, rest) =>
          if fraction.isEmpty && !hasExponent then none
          else if !negative &&
              overflows (Decimal.value (whole ++ fraction)) (exponent - fraction.length) then none
          else some (.float, rest)

/-- Two digits that write a number in a range. -/
def readTwo (low high : Nat) : List Char → Option (Nat × List Char)
  | a :: b :: rest =>
    let n := 10 * digitValue a + digitValue b
    if isDigit a && isDigit b && low ≤ n && n ≤ high then some (n, rest) else none
  | _ => none

/-- The rest after one given character. -/
def after? (c : Char) : List Char → Option (List Char)
  | d :: rest => if c = d then some rest else none
  | [] => none

def daysOfMonth (year month : Nat) : Nat :=
  if month = 2 then
    if year % 4 = 0 && (year % 100 ≠ 0 || year % 400 = 0) then 29 else 28
  else if month = 4 || month = 6 || month = 9 || month = 11 then 30
  else 31

def skipDate (cs : List Char) : Option (List Char) := do
  let (century, cs) ← readTwo 0 99 cs
  let (year, cs) ← readTwo 0 99 cs
  let cs ← after? '-' cs
  let (month, cs) ← readTwo 1 12 cs
  let cs ← after? '-' cs
  let (_, cs) ← readTwo 1 (daysOfMonth (100 * century + year) month) cs
  some cs

def skipTime (cs : List Char) : Option (List Char) := do
  let (_, cs) ← readTwo 0 23 cs
  let cs ← after? ':' cs
  let (_, cs) ← readTwo 0 59 cs
  let cs ← after? ':' cs
  let (_, cs) ← readTwo 0 60 cs
  match cs with
  | '.' :: c :: rest => if isDigit c then some (rest.dropWhile isDigit) else none
  | _ => some cs

/-- The text after an offset from universal time, which may be missing. -/
def skipOffset (cs : List Char) : List Char :=
  match cs with
  | 'Z' :: rest | 'z' :: rest => rest
  | '+' :: rest | '-' :: rest =>
    let after := do
      let (_, rest) ← readTwo 0 23 rest
      let rest ← after? ':' rest
      let (_, rest) ← readTwo 0 59 rest
      some rest
    after.getD cs
  | _ => cs

/-- A date with or without a time, or a time. -/
def readMoment (cs : List Char) : Option (Toml × List Char) :=
  match skipDate cs with
  | none => (skipTime cs).map fun rest => (.moment, rest)
  | some rest =>
    match rest with
    | 'T' :: time | 't' :: time | ' ' :: time =>
      match skipTime time with
      | some after => some (.moment, skipOffset after)
      | none => some (.moment, rest)
    | _ => some (.moment, rest)

def readNumber (cs : List Char) : Option (Toml × List Char) :=
  readMoment cs <|> readFloat cs <|> readInteger cs

end LogPipeline.Toml
