import TableMotion.Json

/-!
# Tallies

What a table has counted since it started or was last reset.
-/

namespace TableMotion

/-- The counters of a table. -/
structure Tally where
  frames : Nat := 0
  messages : Nat := 0
  accepted : Nat := 0
  staleDropped : Nat := 0
  ignored : Nat := 0
  ticks : Nat := 0
  clockRejections : Nat := 0
  enqueued : Nat := 0
  interrupted : Nat := 0
  pruned : Nat := 0
  skippedPaths : Nat := 0
  queueDepth : Nat := 0
deriving DecidableEq

/-- The JSON value of a tally. -/
def Tally.toJson (t : Tally) : Json := .object <| [
  ("frames", t.frames), ("messages", t.messages), ("accepted", t.accepted),
  ("stale_dropped", t.staleDropped), ("ignored", t.ignored), ("ticks", t.ticks),
  ("clock_rejections", t.clockRejections), ("enqueued", t.enqueued),
  ("superseded", t.interrupted), ("evicted", t.pruned), ("skipped_paths", t.skippedPaths),
  ("queue_depth", t.queueDepth)].map fun e => (e.1, .integer (e.2 : Nat))

end TableMotion
