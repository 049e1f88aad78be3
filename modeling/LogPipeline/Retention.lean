import LogPipeline.Archive
import LogPipeline.Disk.World
/-!
# Retention

Archives of a dump file that have not been changed for a number of days are
removed from its directory. Other files stay, whatever their age.
-/

namespace LogPipeline.Retention

/-- A retention period in seconds; one that is too long for a word is as long
as a word can say. -/
def periodSeconds (days : UInt64) : Nat := min (days.toNat * 86400) (Nat.pow 2 64 - 1)

/-- The time before which an archive is too old. A time further back than the
clock can show is taken as the beginning of 1970. -/
def cutoff (now : Nanos) (days : UInt64) : Nanos :=
  if now.seconds - periodSeconds days < -(Nat.pow 2 63 : Int) then 0
  else now - periodSeconds days * 1000000000

def modified? (d : Disk) (place : Place) : Option Nanos :=
  match d.node? place with
  | some (.file _ modified) => some modified
  | _ => none

/-- Whether a place holds an archive of the series that is too old. -/
def isExpired (s : Series) (limit : Nanos) (d : Disk) (place : Place) : Bool :=
  s.holds ((place.getLast?.getD "").toList) &&
    match modified? d place with
    | some modified => modified < limit
    | none => false

/-- Removes the expired archives among some places; gives the number removed. -/
def removeExpired (s : Series) (limit : Nanos) : List Place → World → Nat × World
  | [], w => (0, w)
  | place :: rest, w =>
    if isExpired s limit w.disk place then
      match w.removeFile place with
      | (.ok (), w) =>
        let (n, w) := removeExpired s limit rest w
        (n + 1, w)
      | (.error _, w) => removeExpired s limit rest w
    else removeExpired s limit rest w

/-- Removes the archives of a dump file that are older than a number of days;
gives the number removed. A missing directory holds no archive. -/
def clean (dump : Path) (days : UInt64) (w : World) : Except IoError Nat × World :=
  if !w.disk.has dump.directory then (.ok 0, w)
  else
    let limit := cutoff w.now days
    match w.tick.list dump.directory with
    | (.error e, w) => (.error e, w)
    | (.ok places, w) =>
      let (n, w) := removeExpired (.ofPath dump) limit places w
      (.ok n, w)

end LogPipeline.Retention
