/-!
# JSON values

The values that a JSON text can write. A string keeps the text it writes, or
nothing where it writes half of a surrogate pair; of the numbers, those written
with digits alone keep their value.
-/

namespace LogPipeline

inductive Json where
  | null
  | bool (b : Bool)
  /-- A number written with digits alone. -/
  | natural (n : Nat)
  /-- Any other number. -/
  | number
  | string (text : Option String)
  | array (items : List Json)
  | object (members : List (Option String × Json))

namespace Json

/-- The four blank characters of JSON. -/
def isBlank (c : Char) : Bool := c == ' ' || c == '\n' || c == '\t' || c == '\r'

def skipBlank (cs : List Char) : List Char := cs.dropWhile isBlank

/-- A part of a string between its quotes. -/
inductive StringItem where
  | char (c : Char)
  /-- A sixteen-bit unit written by its four hexadecimal digits. -/
  | unit (n : Nat)
  deriving DecidableEq, Repr

/-- The text of the parts of a string: units outside the surrogates stand for
themselves, a high and a low surrogate together for one character. -/
def decodeItems : List StringItem → Option (List Char)
  | [] => some []
  | .char c :: rest => (decodeItems rest).map (c :: ·)
  | .unit n :: rest =>
    if n < 0xD800 || 0xE000 ≤ n then (decodeItems rest).map (Char.ofNat n :: ·)
    else if n < 0xDC00 then
      match rest with
      | .unit m :: rest =>
        if 0xDC00 ≤ m && m < 0xE000 then
          (decodeItems rest).map (Char.ofNat (0x10000 + (n - 0xD800) * 0x400 + (m - 0xDC00)) :: ·)
        else none
      | _ => none
    else none

end Json

end LogPipeline
