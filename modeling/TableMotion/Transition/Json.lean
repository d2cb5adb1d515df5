import TableMotion.Transition
import TableMotion.Tree.Json

/-!
# Transitions in JSON

The fields stand in a fixed order. What is absent is `null`, and so is a time that is not finite.
-/

namespace TableMotion

/-- The JSON value of a transition. -/
def Transition.toJson (r : Transition) : Json := .object [
  ("id", .integer r.id),
  ("path", .text r.path.text),
  ("kind", .text r.presentation.name),
  ("start_value", Json.ofOption Tree.toJson r.start),
  ("end_value", Json.ofOption Tree.toJson r.finish),
  ("start_time", Json.ofBinary64 r.startTime),
  ("end_time", Json.ofBinary64 r.endTime),
  ("duration", Json.ofBinary64 r.duration),
  ("curve", .text r.easing.name),
  ("switch_point", Json.ofBinary64 r.switchPoint),
  ("source_id", Json.ofOption (fun n => .integer (n : Nat)) r.source),
  ("merge_policy", .text r.joining.name)]

end TableMotion
