import LogPipeline.Text.Pieces
/-!
# Paths

A path is a text cut into pieces by slashes. An empty piece, and a single dot
anywhere but at the beginning, names nothing; the last piece that names
something is the file name, unless it is a dot or two. A file name's extension
begins after its last dot, if something stands before that dot.
-/

namespace LogPipeline

structure Path where
  text : String
  deriving DecidableEq, Repr

namespace Path

def pieces (p : Path) : List (List Char) := Text.pieces '/' p.text.toList

def isAbsolute (p : Path) : Bool := p.text.toList.head? == some '/'

/-- A piece that names nothing. -/
def isVoid (piece : List Char) : Bool := piece == [] || piece == ['.']

/-- The pieces without those at the end that name nothing; the first one stays. -/
def trimPieces : List (List Char) → List (List Char)
  | [] => []
  | first :: rest => first :: (rest.reverse.dropWhile isVoid).reverse

/-- The path of some pieces; a lone empty piece is the root. -/
def ofPieces (pieces : List (List Char)) : Path :=
  if pieces = [[]] then ⟨"/"⟩ else ⟨String.ofList (Text.joinWith '/' pieces)⟩

/-- A path without the pieces that name nothing. Two paths are the same when
this leaves the same text of both. -/
def plain (p : Path) : Path :=
  match p.pieces with
  | first :: rest =>
    if p.text = "" then p else ofPieces (first :: rest.filter fun piece => !isVoid piece)
  | [] => p

/-- The directory part and the last piece that names something. The root and
the empty path have none. -/
def splitLast? (p : Path) : Option (Path × List Char) :=
  match trimPieces p.pieces with
  | [] => none
  | [first] => if first = [] then none else some (⟨""⟩, first)
  | first :: second :: rest =>
    let last := (second :: rest).getLast (by simp)
    some (ofPieces (trimPieces (first :: (second :: rest).dropLast)), last)

/-- The directory part of a path; the empty text stands for the current one. -/
def parent? (p : Path) : Option Path := p.splitLast?.map (·.1)

/-- The file name of a path; a path that ends in a dot or two has none. -/
def fileName? (p : Path) : Option (List Char) :=
  match p.splitLast? with
  | some (_, name) => if name = ['.'] || name = ['.', '.'] then none else some name
  | none => none

def splitExtension (name : List Char) : List Char × Option (List Char) :=
  let after := name.reverse.takeWhile (· ≠ '.')
  match name.reverse.dropWhile (· ≠ '.') with
  | [] | [_] => (name, none)
  | _ :: stem => (stem.reverse, some after.reverse)

/-- The file name without its extension; empty for a path without file name. -/
def stem (p : Path) : List Char :=
  match p.fileName? with
  | some name => (splitExtension name).1
  | none => []

def extension? (p : Path) : Option (List Char) :=
  p.fileName?.bind fun name => (splitExtension name).2

def suffix (p : Path) : List Char :=
  match p.extension? with
  | some ext => '.' :: ext
  | none => []

/-- A path extended by another; an absolute one takes its place. -/
def join (p other : Path) : Path :=
  if other.isAbsolute || p.text = "" then other
  else if p.text.toList.getLast? = some '/' then ⟨p.text ++ other.text⟩
  else ⟨p.text ++ "/" ++ other.text⟩

/-- The path with another file name in the same directory. -/
def withFileName (p : Path) (name : List Char) : Path :=
  let directory := if p.fileName?.isSome then p.parent?.getD p else p
  directory.join ⟨String.ofList name⟩

/-- The directory that holds a path's file, the current one written as a dot. -/
def directory (p : Path) : Path :=
  match p.parent? with
  | some dir => if dir.text = "" then ⟨"."⟩ else dir
  | none => ⟨"."⟩

/-- A path with a leading tilde replaced by the home directory; a tilde followed
by anything but a slash stays. -/
def expandHome (p home : Path) : Path :=
  match p.text.toList with
  | ['~'] => home
  | '~' :: '/' :: rest => ⟨home.text ++ "/" ++ String.ofList rest⟩
  | _ => p

end Path

end LogPipeline
