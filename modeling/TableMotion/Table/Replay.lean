import TableMotion.Recording
import TableMotion.Table

/-!
# Replay

A replay rebuilds a table from a recording, from time zero and up to a target. Nothing in a
recording ends the program: ticks backward are rejected while it plays. A replay to a time leaves
the clock exactly there.
-/

namespace TableMotion

/-- How far a replay goes. -/
inductive Extent where
  /-- Every entry. -/
  | whole
  /-- The entries with numbers up to this one. -/
  | sequence (limit : Nat)
  /-- The entries before the first tick past this time, and then a tick to it. -/
  | time (limit : Binary64)
deriving DecidableEq

/-- What a replay came to. -/
structure Summary where
  target : Extent
  entriesApplied : Nat
  lastSeq : Option Nat
  time : Binary64
  version : Option Int
  fingerprint : UInt64
deriving DecidableEq

namespace Extent

/-- Whether an entry lies past the target. -/
def isPassedBy (target : Extent) (e : Entry) : Bool :=
  match target, e.message with
  | .sequence limit, _ => limit < e.seq
  | .time limit, .tick step => limit < step.time
  | _, _ => false

/-- The entries of a recording up to the target. -/
def entriesOf (target : Extent) (r : Recording) : List Entry :=
  r.inOrder.takeWhile fun e => !target.isPassedBy e

end Extent

namespace Table

/-- Takes ticks backward for a defect, or only rejects them. -/
def setFatal (t : Table) (fatal : Bool) : Table := { t with clock := { t.clock with fatal } }

/-- Moves the clock to the time of a target: forward by a tick, backward by a jump. -/
def landOn (target : Extent) (s : List Event × Table) : List Event × Table :=
  match target with
  | .time limit =>
    if s.2.now ≤ limit then
      let (_, events, t) := s.2.tick ⟨limit, s.2.now, none⟩
      (s.1 ++ events, t)
    else (s.1, { s.2 with clock := s.2.clock.jump limit })
  | _ => s

/-- What a replay came to. -/
def summaryOf (target : Extent) (played : List Entry) (t : Table) : Summary where
  target
  entriesApplied := played.length
  lastSeq := played.getLast?.map (·.seq)
  time := t.now
  version := t.gameState.version
  fingerprint := t.frame.fingerprint

/-- Replays a recording up to a target. -/
def replay (t : Table) (r : Recording) (target : Extent) :
    Summary × List Event × Table :=
  let played := target.entriesOf r
  let run := (t.reset.setFatal false).receiveAll (played.map (·.message))
  let (events, landed) := landOn target run
  let restored := landed.setFatal t.clock.fatal
  (summaryOf target played restored, events, restored)

end Table

/-! ## Summaries in JSON -/

/-- The JSON value of a target. -/
def Extent.toJson : Extent → Json
  | .whole => .text "End"
  | .sequence limit => .object [("Sequence", .integer limit)]
  | .time limit => .object [("Time", Json.ofBinary64 limit)]

/-- The JSON value of a summary. -/
def Summary.toJson (r : Summary) : Json := .object [
  ("target", r.target.toJson),
  ("entries_applied", .integer r.entriesApplied),
  ("last_seq", Json.ofOption (fun n => .integer (n : Nat)) r.lastSeq),
  ("time", Json.ofBinary64 r.time),
  ("version", Json.ofOption Json.integer r.version),
  ("digest", .integer r.fingerprint.toNat)]

end TableMotion
