import LogPipeline.Arg
import LogPipeline.Level
import LogPipeline.Time.Civil
/-!
# Log entries

A record as it is made at the call site and never changed afterwards. What
stands before its message is either the tag of the caller's component or the
call site itself; a verbatim entry shows neither.
-/

namespace LogPipeline

/-- The place in a program that made a log call. -/
structure CallSite where
  file : String
  line : Nat
  deriving DecidableEq, Repr

def CallSite.render (c : CallSite) : String := c.file ++ " " ++ Decimal.natText c.line

/-- What an entry shows of its origin. -/
inductive Heading where
  | tag (name : String)
  | site (site : CallSite)
  deriving DecidableEq, Repr

/-- A single log record. -/
structure Entry where
  time : LocalTime
  level : Level
  heading : Heading
  args : List Arg
  /-- The message alone is written, without time, level and heading. -/
  verbatim : Bool
  deriving Repr

namespace Entry

def tagged (time : LocalTime) (level : Level) (tag : String) (args : List Arg) : Entry :=
  { time, level, heading := .tag tag, args, verbatim := false }

/-- An entry rendered beforehand. -/
def preformatted (time : LocalTime) (level : Level) (args : List Arg) : Entry :=
  { time, level, heading := .tag "", args, verbatim := true }

/-- The entry with its call site shown in place of the tag. -/
def withCaller (e : Entry) (site : CallSite) : Entry := { e with heading := .site site }

/-- The tag of an entry; empty when the call site has taken its place. -/
def tag (e : Entry) : String :=
  match e.heading with
  | .tag name => name
  | .site _ => ""

def caller? (e : Entry) : Option CallSite :=
  match e.heading with
  | .tag _ => none
  | .site site => some site

def message (e : Entry) : String := Arg.join e.args

end Entry

end LogPipeline
