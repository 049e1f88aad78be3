import LogPipeline.Entry
/-!
# Lines

An entry as one line of the log: `[YY/MM/DD hh:mm:ss] [LEVEL] [tag]  message`
with a newline, or the message alone for a verbatim entry; and the colours a
terminal shows the levels in.
-/

namespace LogPipeline

def stampText (t : LocalTime) : String := t.civil.lineStamp

namespace Heading

/-- What a line shows of an entry's origin; an empty tag shows nothing. -/
def render : Heading → String
  | .site c => "[" ++ c.render ++ "]  "
  | .tag name => if name.isEmpty then "" else "[" ++ name ++ "]  "

end Heading

namespace Entry

def opening (e : Entry) : String :=
  if e.verbatim then ""
  else "[" ++ stampText e.time ++ "] [" ++ e.level.label ++ "] " ++ e.heading.render

/-- An entry as a line of the log, its newline included. -/
def render (e : Entry) : String := e.opening ++ e.message ++ "\n"

end Entry

namespace Level

/-- The terminal sequence that begins a level's colour; info has none. -/
def colour? : Level → Option String
  | debug => some "\x1b[1;40;32m"
  | info => none
  | warn => some "\x1b[1;40;33m"
  | error => some "\x1b[1;40;31m"

def colourEnd : String := "\x1b[0m"

def colourise (l : Level) (line : String) : String :=
  match l.colour? with
  | some begin => begin ++ line ++ colourEnd
  | none => line

end Level

end LogPipeline
