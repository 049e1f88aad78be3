import LogPipeline.Text.Hex
/-!
# Writing TOML strings

A string is written in the plainest of the four styles that can hold it: quoted
if nothing needs an escape, literal if that avoids escapes, then the same on
several lines; what no other style can hold is quoted with escapes.
-/

namespace LogPipeline.Toml

/-- The four ways to write a string. -/
inductive StringStyle where
  | quoted
  | literal
  | quotedLines
  | literalLines
  deriving DecidableEq, Repr

/-- The longest run of a character, when a run of some length is under way. -/
def longestRun (c : Char) : Nat → List Char → Nat
  | run, [] => run
  | run, d :: rest => if d = c then longestRun c (run + 1) rest else max run (longestRun c 0 rest)

/-- Whether a character can only be written as an escape. -/
def needsCode (c : Char) : Bool :=
  (c.toNat < 0x20 && c ≠ '\t' && c ≠ '\n') || c.toNat = 0x7F

def StringStyle.of (cs : List Char) : StringStyle :=
  let codes := cs.any needsCode
  let backslash := cs.contains '\\'
  let newline := cs.contains '\n'
  let quotes := longestRun '"' 0 cs
  let apostrophes := longestRun '\'' 0 cs
  if !codes && !backslash && quotes = 0 && !newline then .quoted
  else if !codes && apostrophes = 0 && !newline then .literal
  else if !codes && !backslash && quotes ≤ 2 then .quotedLines
  else if !codes && apostrophes ≤ 2 then .literalLines
  else if newline then .quotedLines
  else .quoted

/-- A character between quotes, apart from quotes themselves. -/
def writeChar (lines : Bool) (c : Char) : List Char :=
  if c = '\x08' then ['\\', 'b']
  else if c = '\t' then ['\\', 't']
  else if c = '\n' then if lines then ['\n'] else ['\\', 'n']
  else if c = '\x0c' then ['\\', 'f']
  else if c = '\r' then ['\\', 'r']
  else if c = '\\' then ['\\', '\\']
  else if c.toNat < 0x20 || c.toNat = 0x7F then '\\' :: 'u' :: Text.hexFour true c.toNat
  else [c]

/-- The characters between quotes. A quote is escaped when more than the
allowed number would stand in a row. -/
def writeQuoted (lines : Bool) : Nat → List Char → List Char
  | _, [] => []
  | run, c :: rest =>
    if c = '"' then
      if (if lines then 2 else 0) ≤ run then '\\' :: '"' :: writeQuoted lines 0 rest
      else '"' :: writeQuoted lines (run + 1) rest
    else writeChar lines c ++ writeQuoted lines 0 rest

/-- A text between delimiters, after a line end if it has one itself. -/
def enclose (delimiter : List Char) (newline : Bool) (body : List Char) : List Char :=
  delimiter ++ (if newline then ['\n'] else []) ++ body ++ delimiter

def writeString (s : String) : List Char :=
  let cs := s.toList
  let newline := cs.contains '\n'
  match StringStyle.of cs with
  | .quoted => enclose ['"'] false (writeQuoted false 0 cs)
  | .literal => enclose ['\''] false cs
  | .quotedLines => enclose ['"', '"', '"'] newline (writeQuoted true 0 cs)
  | .literalLines => enclose ['\'', '\'', '\''] newline cs

end LogPipeline.Toml
