/-!
# Hexadecimal digits
-/

namespace LogPipeline.Text

/-- The value of a hexadecimal digit, in either case of letters. -/
def hexValue? (c : Char) : Option Nat :=
  let n := c.toNat
  if 48 ≤ n && n ≤ 57 then some (n - 48)
  else if 65 ≤ n && n ≤ 70 then some (n - 55)
  else if 97 ≤ n && n ≤ 102 then some (n - 87)
  else none

/-- The digit of a number below sixteen, in capitals or in small letters. -/
def hexDigit (capital : Bool) (d : Nat) : Char :=
  if d < 10 then Char.ofNat (48 + d) else Char.ofNat ((if capital then 55 else 87) + d)

/-- The number that hexadecimal digits write, if all of them are. -/
def hexNumber? (cs : List Char) : Option Nat :=
  cs.foldlM (fun n c => (hexValue? c).map (16 * n + ·)) 0

def hexFour (capital : Bool) (n : Nat) : List Char :=
  [hexDigit capital (n / 4096 % 16), hexDigit capital (n / 256 % 16),
    hexDigit capital (n / 16 % 16), hexDigit capital (n % 16)]

theorem hexValue?_hexDigit (capital : Bool) {d : Nat} (h : d < 16) :
    hexValue? (hexDigit capital d) = some d := by
  have key : ∀ b : Bool, ∀ d < 16, hexValue? (hexDigit b d) = some d := by decide
  exact key capital d h

theorem hexNumber?_hexFour (capital : Bool) {n : Nat} (h : n < 65536) :
    hexNumber? (hexFour capital n) = some n := by
  have h0 : n / 4096 % 16 < 16 := Nat.mod_lt _ (by omega)
  have h1 : n / 256 % 16 < 16 := Nat.mod_lt _ (by omega)
  have h2 : n / 16 % 16 < 16 := Nat.mod_lt _ (by omega)
  have h3 : n % 16 < 16 := Nat.mod_lt _ (by omega)
  simp only [hexNumber?, hexFour, List.foldlM_cons, List.foldlM_nil, hexValue?_hexDigit _ h0,
    hexValue?_hexDigit _ h1, hexValue?_hexDigit _ h2, hexValue?_hexDigit _ h3, Option.map_some,
    Option.bind_eq_bind, Option.bind_some, Option.pure_def, Option.some.injEq]
  omega

end LogPipeline.Text
