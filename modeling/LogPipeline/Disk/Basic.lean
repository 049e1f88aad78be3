import LogPipeline.Path
import LogPipeline.Text.Bytes
import LogPipeline.Time.Civil
/-!
# The disk

A tree of directories and files, given by what stands at each place. A place is
the list of names from the root. Paths are followed from the current directory,
through directories that exist; two dots lead to the directory above.
-/

namespace LogPipeline

/-- Why a file operation fails. -/
inductive IoError where
  | notFound
  | notADirectory
  | isADirectory
  | directoryNotEmpty
  | busy
  | nameTooLong
  | invalidInput
  | noSpace
  /-- The contents are not UTF-8. -/
  | invalidData
  /-- The operation fails for a reason outside the disk. -/
  | device (text : String)
  deriving DecidableEq, Repr

namespace IoError

def message : IoError → String
  | notFound => "No such file or directory (os error 2)"
  | notADirectory => "Not a directory (os error 20)"
  | isADirectory => "Is a directory (os error 21)"
  | directoryNotEmpty => "Directory not empty (os error 39)"
  | busy => "Device or resource busy (os error 16)"
  | nameTooLong => "File name too long (os error 36)"
  | invalidInput => "file name contained an unexpected NUL byte"
  | noSpace => "No space left on device (os error 28)"
  | invalidData => "stream did not contain valid UTF-8"
  | device text => text

end IoError

/-- What stands at a place. -/
inductive Node where
  | directory
  | file (contents : Bytes) (modified : Nanos)
  /-- A device that can be opened and keeps nothing; it takes every byte, or
  none. -/
  | device (takes : Bool)
  deriving DecidableEq, Repr

/-- The names from the root to a place. -/
abbrev Place := List String

/-- All places in use, and the current directory. -/
structure Disk where
  nodes : List (Place × Node)
  here : Place
  deriving Repr

/-- How a path ends. -/
inductive PathEnd where
  /-- In a name, which need not exist. -/
  | name
  | slash
  /-- In a dot or two, perhaps with slashes after them, or at the root. -/
  | dots
  deriving DecidableEq, Repr

structure Target where
  place : Place
  ending : PathEnd
  deriving DecidableEq, Repr

/-- Only a directory will do for a path that does not end in a name. -/
def Target.asDirectory (t : Target) : Bool := t.ending != .name

namespace Disk

/-- What stands at a place, if anything; the root is a directory. -/
def node? (d : Disk) (place : Place) : Option Node :=
  if place = [] then some .directory else d.nodes.lookup place

def isDirectory (d : Disk) (place : Place) : Bool := d.node? place = some .directory

def put (d : Disk) (place : Place) (node : Node) : Disk :=
  if (d.nodes.lookup place).isSome then
    { d with nodes := d.nodes.map fun e => if e.1 = place then (place, node) else e }
  else { d with nodes := d.nodes ++ [(place, node)] }

/-- Removes what stands at a place and below it. -/
def erase (d : Disk) (place : Place) : Disk :=
  { d with nodes := d.nodes.filter fun e => !place.isPrefixOf e.1 }

def children (d : Disk) (place : Place) : List Place :=
  (d.nodes.map (·.1)).filter fun q => q ≠ [] && q.dropLast = place

/-- The greatest number of bytes in a file name, and in a path with its end. -/
def nameLimit : Nat := 255

@[inherit_doc nameLimit] def pathLimit : Nat := 4096

/-- The place that a path spells, whatever stands there and on the way. -/
def placeOf (d : Disk) (p : Path) : Place :=
  p.pieces.foldl (fun place piece =>
    if Path.isVoid piece then place
    else if piece = ['.', '.'] then place.dropLast
    else place ++ [String.ofList piece]) (if p.isAbsolute then [] else d.here)

/-- Follows the pieces of a path from a directory, which the pieces before them
have reached with a given ending. -/
def follow (d : Disk) (place : Place) (ending : PathEnd) :
    List (List Char) → Except IoError Target
  | [] => .ok ⟨place, ending⟩
  | piece :: rest =>
    if piece = [] then d.follow place ending rest
    else if piece = ['.'] then d.follow place .dots rest
    else if piece = ['.', '.'] then d.follow place.dropLast .dots rest
    else
      let name := String.ofList piece
      if nameLimit < name.utf8ByteSize then .error .nameTooLong
      else if rest = [] then .ok ⟨place ++ [name], .name⟩
      else
        match d.node? (place ++ [name]) with
        | none => .error .notFound
        | some .directory => d.follow (place ++ [name]) .slash rest
        | some _ => .error .notADirectory

/-- Follows a path from the current directory, or from the root. -/
def resolve (d : Disk) (p : Path) : Except IoError Target :=
  if p.text = "" then .error .notFound
  else if p.text.toList.contains '\x00' then .error .invalidInput
  else if pathLimit ≤ p.text.utf8ByteSize then .error .nameTooLong
  else d.follow (if p.isAbsolute then [] else d.here) .dots p.pieces

/-- Whether something stands at the end of a path. -/
def has (d : Disk) (p : Path) : Bool :=
  match d.resolve p with
  | .ok t =>
    match d.node? t.place with
    | some .directory => true
    | some _ => !t.asDirectory
    | none => false
  | .error _ => false

/-- The place of a file to be written, which need not exist. -/
def fileTarget (d : Disk) (p : Path) : Except IoError Place :=
  match d.resolve p with
  | .error e => .error e
  | .ok t => if t.asDirectory || d.isDirectory t.place then .error .isADirectory else .ok t.place

def read (d : Disk) (p : Path) : Except IoError Bytes :=
  match d.fileTarget p with
  | .error e => .error e
  | .ok place =>
    match d.node? place with
    | some (.file contents _) => .ok contents
    | some _ => .ok []
    | none => .error .notFound

def readText (d : Disk) (p : Path) : Except IoError String :=
  match d.read p with
  | .error e => .error e
  | .ok bytes =>
    match Text.decode? bytes with
    | some text => .ok text
    | none => .error .invalidData

/-- Gives a file new contents, and makes it if it is missing. -/
def write (d : Disk) (p : Path) (contents : Bytes) (now : Nanos) : Except IoError Disk :=
  match d.fileTarget p with
  | .error e => .error e
  | .ok place =>
    match d.node? place with
    | some (.device takes) => if takes || contents = [] then .ok d else .error .noSpace
    | _ => .ok (d.put place (.file contents now))

/-- A place after everything at `source` has moved to `target`. -/
def movedPlace (source target place : Place) : Place :=
  if source.isPrefixOf place then target ++ place.drop source.length else place

/-- Whether something may move from one place to another. A directory that is
reached by dots stays where it is. -/
def checkMove (d : Disk) (source target : Target) : Except IoError Unit :=
  if source.ending = .dots || target.ending = .dots then .error .busy
  else match d.node? source.place, d.node? target.place with
  | none, _ => .error .notFound
  | some .directory, other =>
    if source.place.isPrefixOf target.place && source.place ≠ target.place then
      .error .invalidInput
    else
      match other with
      | none => .ok ()
      | some .directory =>
        if source.place ≠ target.place && d.children target.place ≠ [] then
          .error .directoryNotEmpty
        else .ok ()
      | some _ => .error .notADirectory
  | some _, some .directory => .error .isADirectory
  | some _, _ => if source.asDirectory || target.asDirectory then .error .notADirectory else .ok ()

/-- Renames a file or a directory. A file at the new path is replaced. -/
def rename (d : Disk) (source target : Path) : Except IoError Disk :=
  match d.resolve source, d.resolve target with
  | .error e, _ => .error e
  | _, .error e => .error e
  | .ok s, .ok t =>
    match d.checkMove s t with
    | .error e => .error e
    | .ok () =>
      if s.place = t.place then .ok d
      else
        let kept := d.erase t.place
        .ok { nodes := kept.nodes.map fun e => (movedPlace s.place t.place e.1, e.2)
              here := movedPlace s.place t.place d.here }

def directoryAt (d : Disk) (p : Path) : Except IoError Place :=
  match d.resolve p with
  | .error e => .error e
  | .ok t =>
    match d.node? t.place with
    | some .directory => .ok t.place
    | some _ => .error .notADirectory
    | none => .error .notFound

end Disk

end LogPipeline
