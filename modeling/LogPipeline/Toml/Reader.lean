import LogPipeline.Toml.Numbers
import LogPipeline.Toml.Strings
/-!
# Reading TOML

A text is read line by line as keys with values, headers, comments and empty
lines. Values in brackets and braces may be nested to a depth of 79, and a
dotted key has at most 79 parts.
-/

namespace LogPipeline.Toml

open Decimal (isDigit)

/-- The greatest depth of brackets, and the greatest number of parts of a key. -/
def depthLimit : Nat := 79

/-- Whether a character may stand in a key without quotes. -/
def isBareKey (c : Char) : Bool :=
  let n := c.toNat
  isDigit c || (65 ≤ n && n ≤ 90) || (97 ≤ n && n ≤ 122) || c == '_' || c == '-'

def readSimpleKey (cs : List Char) : Option (String × List Char) :=
  match cs with
  | '"' :: _ | '\'' :: _ => readLineString cs
  | _ =>
    let key := cs.takeWhile isBareKey
    if key.isEmpty then none else some (String.ofList key, cs.dropWhile isBareKey)

/-- The parts of a key, with blanks around each. -/
def readParts : Nat → List Char → Option (List String × List Char)
  | 0, _ => none
  | fuel + 1, cs =>
    match readSimpleKey (skipBlank cs) with
    | none => none
    | some (part, rest) =>
      match skipBlank rest with
      | '.' :: rest => (readParts fuel rest).map fun (parts, rest) => (part :: parts, rest)
      | rest => some ([part], rest)

/-- A key as the path to its last part, and that part. -/
def readKey (cs : List Char) : Option ((List String × String) × List Char) :=
  match readParts (cs.length + 1) cs with
  | none => none
  | some (parts, rest) =>
    match parts.getLast? with
    | none => none
    | some last =>
      if parts.length ≤ depthLimit then some ((parts.dropLast, last), rest) else none

def skipComment : List Char → List Char
  | '#' :: rest => rest.dropWhile isPlain
  | cs => cs

/-- A text without the blanks, comments and line ends in front. A comment must
end its line. -/
def skipLines : Nat → List Char → List Char
  | 0, cs => cs
  | fuel + 1, cs =>
    let cs := skipBlank cs
    match afterNewline? cs with
    | some rest => skipLines fuel rest
    | none =>
      match cs with
      | '#' :: rest =>
        match afterNewline? (rest.dropWhile isPlain) with
        | some rest => skipLines fuel rest
        | none => cs
      | _ => cs

/-- The elements of an array after its opening bracket; a comma may stand after
the last one. -/
def readItems (read : List Char → Option (Toml × List Char)) :
    Nat → List Char → Option (List Toml × List Char)
  | 0, _ => none
  | fuel + 1, cs =>
    match skipLines (cs.length + 1) cs with
    | ']' :: rest => some ([], rest)
    | cs =>
      match read cs with
      | none => none
      | some (v, rest) =>
        match skipLines (rest.length + 1) rest with
        | ',' :: rest => (readItems read fuel rest).map fun (vs, rest) => (v :: vs, rest)
        | ']' :: rest => some ([v], rest)
        | _ => none

def readPair (read : List Char → Option (Toml × List Char)) (cs : List Char) :
    Option (((List String × String) × Toml) × List Char) :=
  match readKey cs with
  | none => none
  | some (key, rest) =>
    match skipBlank rest with
    | '=' :: rest => (read (skipBlank rest)).map fun (v, rest) => ((key, v), rest)
    | _ => none

/-- The keys of a table in braces; no comma may stand after the last one. -/
def readPairs (read : List Char → Option (Toml × List Char)) :
    Nat → List Char → Option (List ((List String × String) × Toml) × List Char)
  | 0, _ => none
  | fuel + 1, cs =>
    match readPair read cs with
    | none => none
    | some (pair, rest) =>
      match skipBlank rest with
      | ',' :: rest => (readPairs read fuel rest).map fun (ps, rest) => (pair :: ps, rest)
      | '\x7d' :: rest => some ([pair], rest)
      | _ => none

/-- A table in braces after its opening one. -/
def readBraces (read : List Char → Option (Toml × List Char)) (cs : List Char) :
    Option (Toml × List Char) :=
  match skipBlank cs with
  | '\x7d' :: rest => some (.table .braces [], rest)
  | cs =>
    match readPairs read (cs.length + 1) cs with
    | none => none
    | some (pairs, rest) => (addAll [] pairs).map fun es => (.table .braces es, rest)

/-- A value. The number is the depth of brackets still allowed. -/
def readValue : Nat → List Char → Option (Toml × List Char)
  | depth, cs =>
    match cs with
    | '"' :: _ | '\'' :: _ => (readString cs).map fun (s, rest) => (.string s, rest)
    | 't' :: 'r' :: 'u' :: 'e' :: rest => some (.boolean true, rest)
    | 'f' :: 'a' :: 'l' :: 's' :: 'e' :: rest => some (.boolean false, rest)
    | '[' :: rest =>
      match depth with
      | 0 => none
      | depth + 1 =>
        (readItems (readValue depth) (rest.length + 1) rest).map fun (vs, rest) =>
          (.array vs, rest)
    | '\x7b' :: rest =>
      match depth with
      | 0 => none
      | depth + 1 => readBraces (readValue depth) rest
    | _ => readNumber cs

/-- The text after the end of a line that may end in a comment. -/
def endLine (cs : List Char) : Option (List Char) :=
  match skipComment (skipBlank cs) with
  | [] => some []
  | rest => afterNewline? rest

/-- A header after its first bracket. -/
def readHeader (cs : List Char) : Option (Section × List Char) :=
  let (isRow, cs) := match cs with
    | '[' :: rest => (true, rest)
    | _ => (false, cs)
  match readKey cs with
  | none => none
  | some ((path, key), rest) =>
    let close? := if isRow then (after? ']' rest).bind (after? ']') else after? ']' rest
    match close?.bind endLine with
    | some rest => some (⟨isRow, path, key, []⟩, rest)
    | none => none

/-- What a document holds: the keys before the first header, and the sections. -/
structure Parts where
  keys : List ((List String × String) × Toml)
  sections : List Section

/-- The parts of a document. A section's keys come back with the lines after
its header, and are then given to it. -/
def readParts? : Nat → List Char → Option Parts
  | 0, _ => none
  | fuel + 1, cs =>
    match skipBlank cs with
    | [] => some ⟨[], []⟩
    | '[' :: rest =>
      match readHeader rest with
      | none => none
      | some (s, rest) =>
        (readParts? fuel rest).map fun p => ⟨[], { s with keys := p.keys } :: p.sections⟩
    | c :: rest =>
      if c = '#' || c = '\n' || c = '\r' then
        match endLine (c :: rest) with
        | some rest => readParts? fuel rest
        | none => none
      else
        match readPair (readValue depthLimit) (c :: rest) with
        | none => none
        | some (pair, rest) =>
          match endLine rest with
          | none => none
          | some rest =>
            (readParts? fuel rest).map fun p => { p with keys := pair :: p.keys }

/-- The table that a whole text writes. A byte order mark may stand in front. -/
def parse (s : String) : Option Entries :=
  let cs := match s.toList with
    | '\uFEFF' :: rest => rest
    | cs => cs
  (readParts? (cs.length + 1) cs).bind fun p => ofSections p.keys p.sections

end LogPipeline.Toml
