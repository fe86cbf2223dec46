-- What is counted about a computation.
import FreeTime.Compute

namespace FreeTime

/-- One update of a metric. The value is left open where it is a time that passed. -/
structure MetricUpdate where
  name : String
  labels : List (String × String)
  value : Option Nat
deriving DecidableEq

namespace Answer

/-- The reason under which an answer without slots is counted. -/
def emptyLabel (a : Answer) : String :=
  match a.explanations with
  | e :: _ => e.reason.label
  | [] => "unexplained"

end Answer

/-- The status under which a computation is counted, if it returns. -/
def statusLabel? : Except NoAnswer Answer → Option String
  | .ok _ => some "ok"
  | .error (.refused e) => some e.label
  | .error _ => none

/-- The updates that an outcome makes, in order: one computation and its duration, and for an
answer the number of its slots and, when there are none, the reason. A computation that does not
return makes none. -/
def metricUpdates (outcome : Except NoAnswer Answer) : List MetricUpdate :=
  match statusLabel? outcome with
  | none => []
  | some status =>
    let always : List MetricUpdate :=
      [⟨"slotwise_computations_total", [("status", status)], some 1⟩,
        ⟨"slotwise_compute_duration_seconds", [], none⟩]
    match outcome with
    | .error _ => always
    | .ok answer =>
      let returned : MetricUpdate := ⟨"slotwise_slots_returned", [], some answer.slots.length⟩
      let empty : List MetricUpdate :=
        if answer.slots.isEmpty then
          [⟨"slotwise_empty_results_total", [("reason", answer.emptyLabel)], some 1⟩]
        else []
      always ++ returned :: empty

end FreeTime
