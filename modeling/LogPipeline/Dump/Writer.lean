import LogPipeline.Dump.Error
import LogPipeline.Line
import LogPipeline.Retention
/-!
# The dump writer

Entries are appended to the dump file in batches of a hundred. After each batch
the size of the file is looked at: a file that has reached its cap is renamed
to the next archive name, and writing goes on in a new file. When the dump file
fails, what has not been written goes to the fallback file.
-/

namespace LogPipeline

/-- Entries written at once. -/
def batchSize : Nat := 100

/-- The size at which a dump file is archived, if none is chosen: 32 MiB. -/
def defaultDumpSize : UInt64 := 32 * 1024 * 1024

/-- The fallback file, if none is chosen. -/
def defaultFallback : Path := ⟨"dump.log.bak"⟩

/-- The greatest sequence number of an archive; after it comes one. -/
def lastSequence : Nat := 99999

/-- What became of the entries of one dump. -/
structure DumpReport where
  written : Nat
  /-- Entries that went to the fallback file. -/
  spilled : Nat
  /-- Entries neither file took. -/
  lost : Nat
  rotations : Nat
  deriving DecidableEq, Repr

/-- Where entries are written, and the sequence number of the last archive. -/
structure DumpWriter where
  path : Path
  cap : UInt64
  fallback : Path
  /-- Days after which archives are removed; they are kept for ever if absent. -/
  retention : Option UInt64
  sequence : Nat
  deriving DecidableEq, Repr

/-- The lines of some entries, one after the other, as bytes. -/
def renderAll (entries : List Entry) : Bytes :=
  entries.flatMap fun e => Text.encode e.render

/-- Cuts a list into parts of a given length, the last of them perhaps shorter. -/
def chunks {α : Type} (size : Nat) (xs : List α) : List (List α) :=
  if _ : xs = [] ∨ size = 0 then []
  else xs.take size :: chunks size (xs.drop size)
termination_by xs.length
decreasing_by
  rename_i h
  obtain ⟨hx, hs⟩ := not_or.1 h
  have := List.length_pos_iff.2 hx
  simp only [List.length_drop]
  omega

/-- Appends entries to a file that is not the dump file. -/
def writeFallback (path : Path) (entries : List Entry) (w : World) :
    Except DumpError Unit × World :=
  match w.openAppend path with
  | (.error e, w) => (.error (.writeFallback path e), w)
  | (.ok place, w) =>
    match w.append place (renderAll entries) with
    | (.error e, w) => (.error (.writeFallback path e), w)
    | (.ok (), w) => (.ok (), w)

/-- How the writing of one file ended. -/
inductive FileEnd where
  | complete
  | full
  | failed (error : DumpError)
  deriving DecidableEq, Repr

/-- The writing of one file: how it ended, the entries it took and the notices. -/
structure FileRun where
  ended : FileEnd
  written : Nat
  notices : List Notice

/-- How the writing of entries to the dump file and its archives ended. -/
structure DumpRun where
  failure : Option DumpError
  written : Nat
  rotations : Nat
  notices : List Notice

namespace DumpWriter

def new (path : Path) (cap : UInt64) : DumpWriter :=
  { path, cap, fallback := defaultFallback, retention := none, sequence := 0 }

/-- Points the writer at another file; the sequence carries on. -/
def setTarget (d : DumpWriter) (path : Path) (cap : UInt64) : DumpWriter := { d with path, cap }

def nextSequence (d : DumpWriter) : Nat :=
  if lastSequence ≤ d.sequence then 1 else d.sequence + 1

/-- Appends batches to an open file until it is full or one fails. A file whose
size cannot be read is taken as not full. -/
def writeBatches (d : DumpWriter) (place : Place) : List (List Entry) → World → FileRun × World
  | [], w => (⟨.complete, 0, []⟩, w)
  | batch :: rest, w =>
    match w.append place (renderAll batch) with
    | (.error e, w) => (⟨.failed (.writeDump d.path e), 0, []⟩, w)
    | (.ok (), w) =>
      match w.size place with
      | (.ok size, w) =>
        if d.cap.toNat ≤ size then (⟨.full, batch.length, []⟩, w)
        else
          let (run, w) := d.writeBatches place rest w
          (⟨run.ended, batch.length + run.written, run.notices⟩, w)
      | (.error e, w) =>
        let (run, w) := d.writeBatches place rest w
        (⟨run.ended, batch.length + run.written, .sizeUnknown e :: run.notices⟩, w)

/-- Opens the dump file and appends entries until it is full or they run out. -/
def writeFile (d : DumpWriter) (entries : List Entry) (w : World) : FileRun × World :=
  match w.openAppend d.path with
  | (.error e, w) => (⟨.failed (.openDump d.path e), 0, []⟩, w)
  | (.ok place, w) => d.writeBatches place (chunks batchSize entries) w

/-- Renames the dump file to its next archive name. A sequence number is used
up also by a rotation that fails. -/
def rotate (d : DumpWriter) (w : World) : Except DumpError Path × DumpWriter × World :=
  let d := { d with sequence := d.nextSequence }
  let archive := d.path.archive w.localNow d.sequence
  match w.tick.rename d.path archive with
  | (.ok (), w) => (.ok archive, d, w)
  | (.error e, w) => (.error (.renameDump d.path archive e), d, w)

/-- Removes expired archives, if the writer does not keep them for ever. -/
def retain (d : DumpWriter) (w : World) : List Notice × World :=
  match d.retention with
  | none => ([], w)
  | some days =>
    match Retention.clean d.path days w with
    | (.ok 0, w) => ([], w)
    | (.ok count, w) => ([.expiredRemoved count], w)
    | (.error e, w) => ([.cleaningFailed e], w)

/-- Archives a full dump file and removes expired archives; gives the number of
archives made. -/
def archiveFull (d : DumpWriter) (w : World) : Nat × List Notice × DumpWriter × World :=
  match d.rotate w with
  | (.ok archive, d, w) =>
    let (notices, w) := d.retain w
    (1, .rotated archive :: notices, d, w)
  | (.error e, d, w) => (0, [.rotationFailed e], d, w)

/-- Writes entries to the dump file, archiving it each time it is full. -/
def writeEntries (d : DumpWriter) (entries : List Entry) (w : World) :
    DumpRun × DumpWriter × World :=
  match d.writeFile entries w with
  | (⟨.failed e, written, notices⟩, w) => (⟨some e, written, 0, notices⟩, d, w)
  | (⟨.complete, written, notices⟩, w) => (⟨none, written, 0, notices⟩, d, w)
  | (⟨.full, written, notices⟩, w) =>
    let (made, more, d, w) := d.archiveFull w
    let rest := entries.drop written
    if _ : rest ≠ [] ∧ rest.length < entries.length then
      let (run, d, w) := d.writeEntries rest w
      (⟨run.failure, written + run.written, made + run.rotations,
        notices ++ more ++ run.notices⟩, d, w)
    else (⟨none, written, made, notices ++ more⟩, d, w)
termination_by entries.length
decreasing_by
  rename_i h
  exact h.2

/-- Writes entries to the dump file, and what it does not take to the fallback
file. -/
def dump (d : DumpWriter) (entries : List Entry) (w : World) :
    DumpReport × List Notice × DumpWriter × World :=
  if entries = [] then (⟨0, 0, 0, 0⟩, [], d, w)
  else
    match d.writeEntries entries w with
    | (⟨none, written, rotations, notices⟩, d, w) => (⟨written, 0, 0, rotations⟩, notices, d, w)
    | (⟨some e, written, rotations, notices⟩, d, w) =>
      let tail := entries.drop written
      let notices := notices ++ [.spilling e tail.length d.fallback]
      match writeFallback d.fallback tail w with
      | (.ok (), w) => (⟨written, tail.length, 0, rotations⟩, notices, d, w)
      | (.error e, w) =>
        (⟨written, 0, tail.length, rotations⟩, notices ++ [.lost e tail.length], d, w)

end DumpWriter

end LogPipeline
