import LogPipeline.Decimal.Digits
/-!
# Shortest decimal of a binary floating point number

A finite binary number `m · 2^q` stands for every real that rounds to it. The
shortest decimal is taken on the coarsest decimal grid (one significant digit,
then two, …) that has a point in that interval; of the two points around the
number the nearer one is taken, and the upper one when both are equally near.
All comparisons are between natural numbers.
-/

namespace LogPipeline.Decimal

/-- A positive number `value / scale` with the interval of reals that are read
as it: from `low / scale` to `high / scale`, the ends included if `closed`. -/
structure Reading where
  low : Nat
  value : Nat
  high : Nat
  scale : Nat
  closed : Bool

/-- A decimal `coefficient · 10^exponent`. -/
structure Scaled where
  coefficient : Nat
  exponent : Int
  deriving DecidableEq, Repr

namespace Reading

/-- The reading of `significand · 2^exponent`. The gap below is half as wide
when the significand is the least of its binade. -/
def ofBinary (significand : Nat) (exponent : Int) (leastOfBinade : Bool) : Reading :=
  let unit := Nat.pow 2 (exponent - 2).toNat
  { low := (4 * significand - (if leastOfBinade then 1 else 2)) * unit
    value := 4 * significand * unit
    high := (4 * significand + 2) * unit
    scale := Nat.pow 2 (2 - exponent).toNat
    closed := significand % 2 = 0 }

/-- The power of ten of the first significant digit. -/
def leadingExponent (r : Reading) : Int :=
  if r.scale ≤ r.value then ((digits (r.value / r.scale)).length : Int) - 1
  else -((digits ((r.scale + r.value - 1) / r.value - 1)).length : Int)

/-- Whether `n` is not below the lower end, both over the same scale. -/
def above (r : Reading) (lowEnd n : Nat) : Bool :=
  if r.closed then lowEnd ≤ n else lowEnd < n

/-- Whether `n` is not above the upper end, both over the same scale. -/
def below (r : Reading) (highEnd n : Nat) : Bool :=
  if r.closed then n ≤ highEnd else n < highEnd

/-- The decimal taken on the grid of multiples of `10^exponent`, if one of the
two points around the number is read as the number. -/
def onGrid? (r : Reading) (exponent : Int) : Option Scaled :=
  let up := Nat.pow 10 (-exponent).toNat
  let cell := r.scale * Nat.pow 10 exponent.toNat
  let floor := r.value * up / cell
  let lower := r.above (r.low * up) (floor * cell)
  let upper := r.below (r.high * up) ((floor + 1) * cell)
  let upperNearer := (2 * floor + 1) * cell ≤ 2 * (r.value * up)
  if upper && (upperNearer || !lower) then some ⟨floor + 1, exponent⟩
  else if lower then some ⟨floor, exponent⟩
  else none

/-- The shortest decimal; seventeen digits always suffice. -/
def shortest (r : Reading) : Scaled :=
  let top := r.leadingExponent
  ((List.range 17).findSome? fun k : Nat => r.onGrid? (top - k)).getD ⟨0, 0⟩

end Reading

namespace Scaled

def positional (s : Scaled) : List Char :=
  let places := (-s.exponent).toNat
  let written := padded (places + 1) (s.coefficient * Nat.pow 10 s.exponent.toNat)
  let whole := written.take (written.length - places)
  let fraction := (written.drop (written.length - places)).reverse.dropWhile (· == '0')
  if fraction.isEmpty then whole else whole ++ '.' :: fraction.reverse

/-- A decimal written without an exponent holds digits and at most a point. -/
theorem mem_positional {s : Scaled} {c : Char} (h : c ∈ s.positional) :
    isDigit c = true ∨ c = '.' := by
  simp only [positional] at h
  split at h
  · exact .inl (isDigit_of_mem_padded (List.mem_of_mem_take h))
  · rcases List.mem_append.1 h with h | h
    · exact .inl (isDigit_of_mem_padded (List.mem_of_mem_take h))
    · rcases List.mem_cons.1 h with h | h
      · exact .inr h
      · have hr := (List.dropWhile_sublist _).subset (List.mem_reverse.1 h)
        exact .inl (isDigit_of_mem_padded (List.mem_of_mem_drop (List.mem_reverse.1 hr)))

end Scaled

/-- The parts of a 64-bit floating point number. -/
inductive Double where
  | notANumber
  | infinite (negative : Bool)
  | zero (negative : Bool)
  | finite (negative : Bool) (reading : Reading)

/-- Takes the 64 bits of a floating point number apart. -/
def Double.ofBits (bits : UInt64) : Double :=
  let negative := bits >>> 63 == 1
  let biased := ((bits >>> 52) &&& 0x7FF).toNat
  let fraction := (bits &&& 0xFFFFFFFFFFFFF).toNat
  if biased = 0x7FF then if fraction = 0 then .infinite negative else .notANumber
  else if biased = 0 then
    if fraction = 0 then .zero negative
    else .finite negative (.ofBinary fraction (-1074) false)
  else
    .finite negative (.ofBinary (Nat.pow 2 52 + fraction) (biased - 1075) (fraction = 0 && biased ≠ 1))

end LogPipeline.Decimal
