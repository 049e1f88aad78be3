import LogPipeline.Decimal.Digits
import LogPipeline.Json.Basic
import LogPipeline.Text.Hex
/-!
# Reading JSON

A text is read as one JSON value with blanks around it, by the grammar of JSON
and nothing more: no comments, no comma before a closing bracket, no sign but a
minus, no leading zeros. Each reader takes a text and gives what it has read
with the rest.
-/

namespace LogPipeline.Json

open Decimal (isDigit)

/-- The character that a letter after a backslash stands for. -/
def escape? : Char → Option Char
  | '"' => some '"'
  | '\\' => some '\\'
  | '/' => some '/'
  | 'b' => some '\x08'
  | 'f' => some '\x0c'
  | 'n' => some '\n'
  | 'r' => some '\r'
  | 't' => some '\t'
  | _ => none

def consItem (item : StringItem) :
    Option (List StringItem × List Char) → Option (List StringItem × List Char)
  | some (items, rest) => some (item :: items, rest)
  | none => none

/-- The parts of a string up to its closing quote. -/
def readItems : List Char → Option (List StringItem × List Char)
  | [] => none
  | '"' :: rest => some ([], rest)
  | '\\' :: 'u' :: a :: b :: c :: d :: rest =>
    match Text.hexNumber? [a, b, c, d] with
    | some n => consItem (.unit n) (readItems rest)
    | none => none
  | '\\' :: e :: rest =>
    match escape? e with
    | some c => consItem (.char c) (readItems rest)
    | none => none
  | c :: rest =>
    if c.toNat < 0x20 || c = '\\' then none else consItem (.char c) (readItems rest)

def readString (cs : List Char) : Option (Option String × List Char) :=
  (readItems cs).map fun (items, rest) => ((decodeItems items).map String.ofList, rest)

def readDigits (cs : List Char) : List Char × List Char :=
  (cs.takeWhile isDigit, cs.dropWhile isDigit)

/-- A text without a fraction in front; a point needs a digit after it. -/
def skipFraction : List Char → Option (Bool × List Char)
  | '.' :: rest =>
    match readDigits rest with
    | ([], _) => none
    | (_, rest) => some (true, rest)
  | cs => some (false, cs)

/-- A text without an exponent in front; it needs a digit after its sign. -/
def skipExponent : List Char → Option (Bool × List Char)
  | c :: rest =>
    if c = 'e' || c = 'E' then
      let rest := match rest with
        | '+' :: r | '-' :: r => r
        | r => r
      match readDigits rest with
      | ([], _) => none
      | (_, rest) => some (true, rest)
    else some (false, c :: rest)
  | [] => some (false, [])

/-- The digits of a number before its point: a zero alone, or digits that do not
begin with one. -/
def readWhole (cs : List Char) : Option (List Char × List Char) :=
  match cs with
  | '0' :: c :: rest => if isDigit c then none else some (['0'], c :: rest)
  | _ =>
    match readDigits cs with
    | ([], _) => none
    | r => some r

def readNumber (cs : List Char) : Option (Json × List Char) :=
  let (signed, cs) := match cs with
    | '-' :: rest => (true, rest)
    | cs => (false, cs)
  match readWhole cs with
  | none => none
  | some (whole, rest) =>
    match skipFraction rest with
    | none => none
    | some (fraction, rest) =>
      match skipExponent rest with
      | none => none
      | some (exponent, rest) =>
        if signed || fraction || exponent then some (.number, rest)
        else some (.natural (Decimal.value whole), rest)

/-- One or more elements, each read by `read`, with commas between them and a
closing character at the end. -/
def readElements {α : Type} (read : List Char → Option (α × List Char)) (close : Char) :
    Nat → List Char → Option (List α × List Char)
  | 0, _ => none
  | fuel + 1, cs =>
    match read cs with
    | none => none
    | some (x, rest) =>
      match skipBlank rest with
      | [] => none
      | c :: rest =>
        if c = ',' then
          (readElements read close fuel rest).map fun (xs, rest) => (x :: xs, rest)
        else if c = close then some ([x], rest)
        else none

/-- The elements after an opening bracket; there may be none. -/
def readList {α : Type} (read : List Char → Option (α × List Char)) (close : Char)
    (cs : List Char) : Option (List α × List Char) :=
  match skipBlank cs with
  | [] => none
  | c :: rest => if c = close then some ([], rest) else readElements read close (cs.length + 1) cs

def readMember (read : List Char → Option (Json × List Char)) (cs : List Char) :
    Option ((Option String × Json) × List Char) :=
  match skipBlank cs with
  | '"' :: rest =>
    match readString rest with
    | none => none
    | some (key, rest) =>
      match skipBlank rest with
      | ':' :: rest => (read rest).map fun (v, rest) => ((key, v), rest)
      | _ => none
  | _ => none

/-- A value with blanks in front. The number bounds its depth. -/
def readValue : Nat → List Char → Option (Json × List Char)
  | 0, _ => none
  | depth + 1, cs =>
    match skipBlank cs with
    | '"' :: rest => (readString rest).map fun (s, rest) => (.string s, rest)
    | '[' :: rest => (readList (readValue depth) ']' rest).map fun (xs, rest) => (.array xs, rest)
    | '\x7b' :: rest =>
      (readList (readMember (readValue depth)) '\x7d' rest).map fun (ms, rest) => (.object ms, rest)
    | 't' :: 'r' :: 'u' :: 'e' :: rest => some (.bool true, rest)
    | 'f' :: 'a' :: 'l' :: 's' :: 'e' :: rest => some (.bool false, rest)
    | 'n' :: 'u' :: 'l' :: 'l' :: rest => some (.null, rest)
    | cs => readNumber cs

def parse (s : String) : Option Json :=
  match readValue (s.toList.length + 1) s.toList with
  | some (v, rest) => if skipBlank rest = [] then some v else none
  | none => none

end LogPipeline.Json
