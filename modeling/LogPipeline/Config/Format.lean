import LogPipeline.Config.Field
import LogPipeline.Json.Reader
import LogPipeline.Json.Writer
import LogPipeline.Toml.Reader
import LogPipeline.Toml.Writer
/-!
# Configurations as text

A configuration in either of two formats. As JSON it is an object of its
fields, or an array of them in order; as TOML it is a table of its fields, in
which an absent value is left out.
-/

namespace LogPipeline

namespace Plain

def ofJson : Json → Plain
  | .null => .absent
  | .bool b => .flag b
  | .natural n => .natural n
  | .string (some s) => .text s
  | .object [(some name, .null)] => .variant name
  | _ => .other

/-- Whether a TOML value is a table or an array with nothing in it. -/
def isEmptyToml : Toml → Bool
  | .table _ [] | .array [] => true
  | _ => false

def ofToml : Toml → Plain
  | .string s => .text s
  | .integer i => if 0 ≤ i then .natural i.toNat else .other
  | .boolean b => .flag b
  | .table _ [(name, v)] => if isEmptyToml v then .variant name else .other
  | _ => .other

def toJson : Plain → List Char
  | .text s | .variant s => Json.writeString s
  | .natural n => Decimal.digits n
  | .flag true => "true".toList
  | .flag false => "false".toList
  | .absent | .other => "null".toList

/-- A value in TOML; an absent one is not written, and a number that TOML's
integers do not reach cannot be. -/
def toToml : Plain → Except Unit (Option (List Char))
  | .text s | .variant s => .ok (some (Toml.writeString s))
  | .natural n => if n < Nat.pow 2 63 then .ok (some (Decimal.digits n)) else .error ()
  | .flag true => .ok (some "true".toList)
  | .flag false => .ok (some "false".toList)
  | .absent | .other => .ok none

end Plain

namespace Config

/-- The members of a JSON object by name; a name that is no text is refused. -/
def namedMembers : List (Option String × Json) → Option (List (String × Plain))
  | [] => some []
  | (some key, v) :: rest => (namedMembers rest).map ((key, Plain.ofJson v) :: ·)
  | (none, _) :: _ => none

def ofJson : Json → Option Config
  | .object members => (namedMembers members).bind fun es => ofFields (knownFields es)
  | .array items =>
    if items.length ≤ Field.all.length then ofFields (Field.all.zip (items.map Plain.ofJson))
    else none
  | _ => none

def ofToml (entries : Toml.Entries) : Option Config :=
  ofFields (knownFields (entries.map fun e => (e.1, Plain.ofToml e.2)))

def parseJson (s : String) : Option Config := (Json.parse s).bind ofJson

def parseToml (s : String) : Option Config := (Toml.parse s).bind ofToml

/-- One line of a JSON object, without its comma. -/
def jsonLine (e : Field × Plain) : List Char :=
  ' ' :: ' ' :: Json.writeString e.1.key ++ ':' :: ' ' :: e.2.toJson

/-- The configuration in JSON, a field a line. -/
def toJson (c : Config) : String :=
  let lines := c.toFields.map jsonLine
  String.ofList ('\x7b' :: '\n' :: [',', '\n'].intercalate lines ++ ['\n', '\x7d'])

/-- One line of a TOML table, or nothing for an absent value. -/
def tomlLine (e : Field × Plain) : Except Unit (List Char) :=
  match e.2.toToml with
  | .error () => .error ()
  | .ok none => .ok []
  | .ok (some v) => .ok (e.1.key.toList ++ ' ' :: '=' :: ' ' :: v ++ ['\n'])

def toToml (c : Config) : Except Unit String :=
  match c.toFields.mapM tomlLine with
  | .ok lines => .ok (String.ofList lines.flatten)
  | .error () => .error ()

end Config

end LogPipeline
