import LogPipeline.Decimal.Shortest
/-!
# Arguments of a log call

The closed set of values a call may log, the text of each, and the joining of
several into one message: a space stands between two neighbours only when
neither of them is text.
-/

namespace LogPipeline

open Decimal

/-- One value given to a log call. -/
inductive Arg where
  | text (s : String)
  | int (i : Int64)
  | uint (n : UInt64)
  | float (x : Float)
  | bool (b : Bool)
  /-- Text rendered beforehand, often of several lines. -/
  | block (s : String)
  deriving Repr

namespace Arg

/-- A single character is text. -/
def ofChar (c : Char) : Arg := .text (String.singleton c)

/-- A short floating point number is widened before anything else. -/
def ofFloat32 (x : Float32) : Arg := .float x.toFloat

/-- Text glues to its neighbours. -/
def isText : Arg → Bool
  | .text _ | .block _ => true
  | _ => false

/-- The text of a floating point number: the shortest decimal that reads back,
never with an exponent, with the sign of zero kept. -/
def floatText (x : Float) : String :=
  let sign (negative : Bool) : String := if negative then "-" else ""
  match Double.ofBits x.toBits with
  | .notANumber => "NaN"
  | .infinite negative => sign negative ++ "inf"
  | .zero negative => sign negative ++ "0"
  | .finite negative reading => sign negative ++ String.ofList reading.shortest.positional

def render : Arg → String
  | .text s | .block s => s
  | .int i => intText i.toInt
  | .uint n => natText n.toNat
  | .float x => floatText x
  | .bool true => "true"
  | .bool false => "false"

/-- The separator between two neighbours. -/
def separator (a b : Arg) : String := if a.isText || b.isText then "" else " "

/-- The text of the values after a first one. -/
def joinAfter (previous : Arg) : List Arg → String
  | [] => ""
  | a :: rest => previous.separator a ++ a.render ++ joinAfter a rest

def join : List Arg → String
  | [] => ""
  | a :: rest => a.render ++ joinAfter a rest

end Arg

end LogPipeline
