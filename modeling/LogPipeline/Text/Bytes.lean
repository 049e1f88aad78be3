/-!
# Bytes of a text

What a file holds: a list of bytes, with the UTF-8 encoding of a text and two
readings of bytes as text. One refuses anything that is not UTF-8, the other
shows it as the replacement character.
-/

namespace LogPipeline

/-- The contents of a file. -/
abbrev Bytes := List UInt8

namespace Text

def encode (s : String) : Bytes := s.toUTF8.data.toList

def decode? (b : Bytes) : Option String := String.fromUTF8? ⟨b.toArray⟩

/-- The range of the second byte of a character by its first byte, and the
number of bytes after the second. -/
def continuation? (b : UInt8) : Option (UInt8 × UInt8 × Nat) :=
  if 0xC2 ≤ b && b ≤ 0xDF then some (0x80, 0xBF, 0)
  else if b = 0xE0 then some (0xA0, 0xBF, 1)
  else if b = 0xED then some (0x80, 0x9F, 1)
  else if 0xE1 ≤ b && b ≤ 0xEF then some (0x80, 0xBF, 1)
  else if b = 0xF0 then some (0x90, 0xBF, 2)
  else if 0xF1 ≤ b && b ≤ 0xF3 then some (0x80, 0xBF, 2)
  else if b = 0xF4 then some (0x80, 0x8F, 2)
  else none

/-- The number of bytes after the first one that go on with its character. -/
def continuationLength (b : UInt8) : Bytes → Nat
  | [] => 0
  | c :: rest =>
    match continuation? b with
    | some (low, high, more) =>
      if low ≤ c && c ≤ high then
        1 + ((rest.take more).takeWhile fun x => 0x80 ≤ x && x ≤ 0xBF).length
      else 0
    | none => 0

/-- The characters of some bytes. A byte that begins no character, or begins one
that does not end, stands for the replacement character, together with the
bytes that go on with it. -/
def decodeChars : Bytes → List Char
  | [] => []
  | b :: rest =>
    let n := continuationLength b rest
    let chars := match decode? (b :: rest.take n) with
      | some s => s.toList
      | none => ['\uFFFD']
    chars ++ decodeChars (rest.drop n)
termination_by bytes => bytes.length
decreasing_by simp only [List.length_drop, List.length_cons]; omega

/-- The text of some bytes, with the replacement character for what is not
UTF-8. -/
def decodeLossy (b : Bytes) : String := String.ofList (decodeChars b)

theorem encode_append (s t : String) : encode (s ++ t) = encode s ++ encode t := by
  simp [encode]

theorem decode?_encode (s : String) : decode? (encode s) = some s := by
  rw [decode?, encode, String.fromUTF8?]
  exact dif_pos s.isValidUTF8

end Text

end LogPipeline
