import LogPipeline.Text.Hex
/-!
# Strings in TOML

Strings between quotes, with escapes, and between apostrophes, without; on one
line or, with the delimiter tripled, on several. Up to two delimiters may stand
just before the closing three.
-/

namespace LogPipeline.Toml

/-- Whether a character may stand in a comment, and, apart from delimiters and
backslashes, in a string: anything but a control character, or a tab. -/
def isPlain (c : Char) : Bool := c == '\t' || (0x20 ≤ c.toNat && c.toNat ≠ 0x7F)

/-- The two blank characters within a line. -/
def isBlank (c : Char) : Bool := c == ' ' || c == '\t'

def skipBlank (cs : List Char) : List Char := cs.dropWhile isBlank

/-- The rest after a line end, if the text begins with one. -/
def afterNewline? : List Char → Option (List Char)
  | '\n' :: rest => some rest
  | '\r' :: '\n' :: rest => some rest
  | _ => none

/-- The character of a code written in hexadecimal digits. -/
def scalar? (digits : List Char) : Option Char :=
  match Text.hexNumber? digits with
  | some n => if n < 0xD800 || (0xE000 ≤ n && n < 0x110000) then some (Char.ofNat n) else none
  | none => none

/-- The character of an escape after its backslash. -/
def readEscape : List Char → Option (Char × List Char)
  | 'b' :: rest => some ('\x08', rest)
  | 't' :: rest => some ('\t', rest)
  | 'n' :: rest => some ('\n', rest)
  | 'f' :: rest => some ('\x0c', rest)
  | 'r' :: rest => some ('\r', rest)
  | '"' :: rest => some ('"', rest)
  | '\\' :: rest => some ('\\', rest)
  | 'u' :: a :: b :: c :: d :: rest => (scalar? [a, b, c, d]).map fun x => (x, rest)
  | 'U' :: a :: b :: c :: d :: e :: f :: g :: h :: rest =>
    (scalar? [a, b, c, d, e, f, g, h]).map fun x => (x, rest)
  | _ => none

def consChar (c : Char) : Option (List Char × List Char) → Option (List Char × List Char)
  | some (cs, rest) => some (c :: cs, rest)
  | none => none

/-- The characters of a quoted string up to its closing quote. The number
bounds the steps. -/
def readQuoted : Nat → List Char → Option (List Char × List Char)
  | 0, _ => none
  | fuel + 1, cs =>
    match cs with
    | [] => none
    | '"' :: rest => some ([], rest)
    | '\\' :: rest =>
      match readEscape rest with
      | some (c, rest) => consChar c (readQuoted fuel rest)
      | none => none
    | c :: rest => if isPlain c then consChar c (readQuoted fuel rest) else none

/-- The characters of a literal string up to its closing apostrophe. -/
def readLiteral : List Char → Option (List Char × List Char)
  | [] => none
  | c :: rest =>
    if c = '\'' then some ([], rest)
    else if isPlain c then consChar c (readLiteral rest)
    else none

/-- The end of a string of several lines: three delimiters, with one or two
more before them that belong to the string. -/
def closing? (delimiter : Char) (cs : List Char) : Option (List Char × List Char) :=
  let run := cs.takeWhile (· == delimiter)
  if 3 ≤ run.length && run.length ≤ 5 then some (run.drop 3, cs.drop run.length) else none

/-- A backslash at the end of a line removes it with all blanks and line ends
that follow; the text after it. -/
def afterContinuation? (cs : List Char) : Option (List Char) :=
  match afterNewline? (skipBlank cs) with
  | some rest => some (rest.dropWhile fun c => isBlank c || c == '\n' || c == '\r')
  | none => none

/-- Whether no carriage return stands alone in a run of blanks and line ends. -/
def newlinesWhole : List Char → Bool
  | '\r' :: '\n' :: rest => newlinesWhole rest
  | '\r' :: _ => false
  | c :: rest => if isBlank c || c == '\n' then newlinesWhole rest else true
  | [] => true

/-- The characters of a quoted string of several lines up to its end. -/
def readQuotedLines : Nat → List Char → Option (List Char × List Char)
  | 0, _ => none
  | fuel + 1, cs =>
    match closing? '"' cs with
    | some r => some r
    | none =>
      match afterNewline? cs with
      | some rest => consChar '\n' (readQuotedLines fuel rest)
      | none =>
        match cs with
        | [] => none
        | '\\' :: rest =>
          match readEscape rest with
          | some (c, rest) => consChar c (readQuotedLines fuel rest)
          | none =>
            match afterContinuation? rest with
            | some after => if newlinesWhole rest then readQuotedLines fuel after else none
            | none => none
        | '"' :: '"' :: '"' :: _ => none
        | c :: rest => if isPlain c then consChar c (readQuotedLines fuel rest) else none

/-- The characters of a literal string of several lines up to its end. -/
def readLiteralLines : Nat → List Char → Option (List Char × List Char)
  | 0, _ => none
  | fuel + 1, cs =>
    match closing? '\'' cs with
    | some r => some r
    | none =>
      match afterNewline? cs with
      | some rest => consChar '\n' (readLiteralLines fuel rest)
      | none =>
        match cs with
        | [] => none
        | '\'' :: '\'' :: '\'' :: _ => none
        | c :: rest => if isPlain c then consChar c (readLiteralLines fuel rest) else none

/-- A line end just after the opening delimiter does not belong to the string. -/
def skipFirstNewline (cs : List Char) : List Char := (afterNewline? cs).getD cs

/-- A string on one line, which may also be a key. -/
def readLineString : List Char → Option (String × List Char)
  | '"' :: rest => (readQuoted (rest.length + 1) rest).map fun (s, rest) => (String.ofList s, rest)
  | '\'' :: rest => (readLiteral rest).map fun (s, rest) => (String.ofList s, rest)
  | _ => none

def readString (cs : List Char) : Option (String × List Char) :=
  match cs with
  | '"' :: '"' :: '"' :: rest =>
    (readQuotedLines (rest.length + 1) (skipFirstNewline rest)).map fun (s, rest) =>
      (String.ofList s, rest)
  | '\'' :: '\'' :: '\'' :: rest =>
    (readLiteralLines (rest.length + 1) (skipFirstNewline rest)).map fun (s, rest) =>
      (String.ofList s, rest)
  | _ => readLineString cs

end LogPipeline.Toml
