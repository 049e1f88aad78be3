import LogPipeline.Config.Format
/-!
# Configuration files

A configuration is loaded from a file and saved to one: as JSON if the file's
extension says so, in any case of letters, and as TOML otherwise. Without a
file of its own a program takes the one in the home directory, if there is one.
-/

namespace LogPipeline

/-- Why a configuration is not loaded or not saved. -/
inductive ConfigError where
  | reading (path : Path)
  | parsingJson
  | parsingToml
  | serializing
  | writing
  deriving DecidableEq, Repr

namespace ConfigError

def message : ConfigError → String
  | reading path => "Failed to read config file " ++ path.text
  | parsingJson => "Failed to parse JSON config file"
  | parsingToml => "Failed to parse config file"
  | serializing => "Failed to serialize config"
  | writing => "Failed to write config file"

end ConfigError

def Path.isJson (p : Path) : Bool :=
  match p.extension? with
  | some ext => ext.map Char.toLower == ['j', 's', 'o', 'n']
  | none => false

namespace Config

def directory (home : Path) : Path := home.join ⟨".spoollog"⟩

def homeFile (home : Path) : Path := (directory home).join ⟨"config.toml"⟩

/-- The configuration that a text gives, in the format of a file's name. -/
def parseFor (p : Path) (text : String) : Except ConfigError Config :=
  if p.isJson then
    match parseJson text with
    | some c => .ok c
    | none => .error .parsingJson
  else
    match parseToml text with
    | some c => .ok c
    | none => .error .parsingToml

/-- Loads a configuration; its paths are freed of leading tildes. -/
def load (home : Path) (d : Disk) (p : Path) : Except ConfigError Config :=
  match d.readText p with
  | .error _ => .error (.reading p)
  | .ok text =>
    match parseFor p text with
    | .ok c => .ok (c.expandHome home)
    | .error e => .error e

/-- Loads the configuration of a home, or the defaults if it has none. -/
def loadHome (home : Path) (d : Disk) : Except ConfigError Config :=
  if d.has (homeFile home) then load home d (homeFile home) else .ok default

def textFor (p : Path) (c : Config) : Except ConfigError String :=
  if p.isJson then .ok c.toJson
  else
    match c.toToml with
    | .ok text => .ok text
    | .error () => .error .serializing

def save (c : Config) (p : Path) (d : Disk) (now : Nanos) : Except ConfigError Disk :=
  match textFor p c with
  | .error e => .error e
  | .ok text =>
    match d.write p (Text.encode text) now with
    | .ok d => .ok d
    | .error _ => .error .writing

end Config

end LogPipeline
