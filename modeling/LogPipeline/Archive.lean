import LogPipeline.Path
import LogPipeline.Text.Affix
import LogPipeline.Time.Civil
/-!
# Archives of a dump file

When a dump file is full it is renamed to `<stem>_<YYMMDD>_<hhmmss>_<NNNNN><ext>`
in its own directory. All names of that form, for one stem and extension, are
the file's series.
-/

namespace LogPipeline

open Decimal (isDigit padded)

/-- The archive names that belong to one dump file. -/
structure Series where
  stem : List Char
  suffix : List Char
  deriving DecidableEq, Repr

namespace Series

def ofPath (p : Path) : Series := ⟨p.stem, p.suffix⟩

def name (s : Series) (time : Civil) (sequence : Nat) : List Char :=
  s.stem ++ '_' :: (time.archiveStamp ++ '_' :: padded 5 sequence) ++ s.suffix

/-- Whether a text is six digits, six digits and five or more digits, with an
underscore between them. -/
def isStamp (text : List Char) : Bool :=
  match Text.pieces '_' text with
  | [date, clock, sequence] =>
    date.length == 6 && clock.length == 6 && 5 ≤ sequence.length &&
      date.all isDigit && clock.all isDigit && sequence.all isDigit
  | _ => false

/-- Whether a file name belongs to the series. -/
def holds (s : Series) (name : List Char) : Bool :=
  match (Text.afterStart? (s.stem ++ ['_']) name).bind (Text.beforeEnd? s.suffix) with
  | some text => isStamp text
  | none => false

end Series

/-- The path a dump file is renamed to at some local time. -/
def Path.archive (p : Path) (time : LocalTime) (sequence : Nat) : Path :=
  p.withFileName ((Series.ofPath p).name time.civil sequence)

end LogPipeline
