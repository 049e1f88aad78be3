/-!
# TOML values and tables

A document grows key by key. How a table came about decides what may be added
to it later: a table with a header of its own or in braces is closed to dotted
keys, one that dotted keys have made is closed to headers, and one that was
only passed through on the way to a header may still get a header.
-/

namespace LogPipeline

/-- How a table came about. -/
inductive TableOrigin where
  /-- By a header, or as the document itself. -/
  | header
  /-- On the way to a header further down. -/
  | implied
  /-- By dotted keys. -/
  | dotted
  /-- In braces. -/
  | braces
  deriving DecidableEq, Repr

inductive Toml where
  | string (s : String)
  | integer (i : Int)
  | float
  | boolean (b : Bool)
  | moment
  | array (items : List Toml)
  | table (origin : TableOrigin) (entries : List (String × Toml))
  /-- Tables collected under one header in double brackets, the youngest first. -/
  | tables (first : List (String × Toml)) (older : List (List (String × Toml)))

namespace Toml

abbrev Entries := List (String × Toml)

/-- Gives a key another value, in place or at the end. -/
def store (entries : Entries) (key : String) (v : Toml) : Entries :=
  if (entries.lookup key).isSome then
    entries.map fun e => if e.1 == key then (key, v) else e
  else entries ++ [(key, v)]

/-- Adds a key that is not yet there. A key written without dots goes into a
table that dotted keys have not made, a dotted one into a table that they
have. -/
def addKey (origin : TableOrigin) (nested : Bool) (entries : Entries) (key : String) (v : Toml) :
    Option Entries :=
  if (origin == .dotted) != nested then none
  else if (entries.lookup key).isSome then none
  else some (entries ++ [(key, v)])

/-- Adds a dotted key: the tables on its way are made, or were made by dotted
keys or in passing. -/
def addDotted (origin : TableOrigin) (nested : Bool) (entries : Entries) (key : String)
    (v : Toml) : List String → Option Entries
  | [] => addKey origin nested entries key v
  | k :: path =>
    match entries.lookup k with
    | none =>
      (addDotted .dotted true [] key v path).map fun es => store entries k (.table .dotted es)
    | some (.table .dotted es) =>
      (addDotted .dotted true es key v path).map fun es => store entries k (.table .dotted es)
    | some (.table .implied es) =>
      (addDotted .implied true es key v path).map fun es => store entries k (.table .implied es)
    | some (.tables first older) =>
      (addDotted .header true first key v path).map fun es => store entries k (.tables es older)
    | some _ => none

/-- Goes down the path of a header and changes the table at its end, which
holds the header's last key. -/
def underHeader (change : Entries → Option Entries) (entries : Entries) :
    List String → Option Entries
  | [] => change entries
  | k :: path =>
    match entries.lookup k with
    | none => (underHeader change [] path).map fun es => store entries k (.table .implied es)
    | some (.table .braces _) => none
    | some (.table origin es) =>
      (underHeader change es path).map fun es => store entries k (.table origin es)
    | some (.tables first older) =>
      (underHeader change first path).map fun es => store entries k (.tables es older)
    | some _ => none

/-- Adds several keys to a table that is being written out. -/
def addAll (entries : Entries) : List ((List String × String) × Toml) → Option Entries
  | [] => some entries
  | ((path, key), v) :: rest =>
    (addDotted .header false entries key v path).bind fun es => addAll es rest

/-- Adds a table under a header in single brackets. It takes over a table that
was only passed through. -/
def addTable (keys : List ((List String × String) × Toml)) (key : String) (parent : Entries) :
    Option Entries :=
  match parent.lookup key with
  | none => (addAll [] keys).map fun es => store parent key (.table .header es)
  | some (.table .implied es) =>
    (addAll es keys).map fun es => store parent key (.table .header es)
  | some _ => none

/-- Adds a table under a header in double brackets. -/
def addRow (keys : List ((List String × String) × Toml)) (key : String) (parent : Entries) :
    Option Entries :=
  match parent.lookup key with
  | none => (addAll [] keys).map fun es => store parent key (.tables es [])
  | some (.tables first older) =>
    (addAll [] keys).map fun es => store parent key (.tables es (first :: older))
  | some _ => none

/-- A header with the keys below it. -/
structure Section where
  /-- Written in double brackets. -/
  isRow : Bool
  path : List String
  key : String
  keys : List ((List String × String) × Toml)

def addSection (root : Entries) (s : Section) : Option Entries :=
  underHeader (if s.isRow then addRow s.keys s.key else addTable s.keys s.key) root s.path

/-- The document of the keys before the first header and the sections after. -/
def ofSections (keys : List ((List String × String) × Toml)) (sections : List Section) :
    Option Entries :=
  (addAll [] keys).bind fun root => sections.foldlM addSection root

end Toml

end LogPipeline
