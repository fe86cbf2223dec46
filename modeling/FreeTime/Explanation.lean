-- Why a plan has no free time.
import FreeTime.Plan

namespace FreeTime

inductive EmptyReason where
  | noPositiveRule
  | fullyBlockedByBusy
  | fullyBlockedByNegativeRule
  | partiallyBlocked
  | emptySelection
deriving DecidableEq

def EmptyReason.label : EmptyReason → String
  | noPositiveRule => "no_positive_rule"
  | fullyBlockedByBusy => "fully_blocked_by_busy"
  | fullyBlockedByNegativeRule => "fully_blocked_by_negative_rule"
  | partiallyBlocked => "partially_blocked"
  | emptySelection => "empty_selection"

/-- A reason, the resources it is about, and its wording. -/
structure Explanation where
  reason : EmptyReason
  resources : List Int
  message : String
deriving DecidableEq

namespace Explanation

/-- An explanation lists its resources in order, each once. -/
def about (reason : EmptyReason) (ids : List Int) (message : String) : Explanation :=
  ⟨reason, (IdSet.ofList ids).toList, message⟩

/-- A filter took away the last resource. -/
def emptySelection (filter : String) : Explanation :=
  about .emptySelection [] ("no resources left after " ++ filter)

end Explanation

namespace Setting

/-- The resources for which no rule opens any time. -/
def barren (s : Setting) : List Int → Except NoAnswer (List Int)
  | [] => .ok []
  | id :: ids => do
    let intervals ← s.intervals id
    let rest ← s.barren ids
    return if intervals.opening.isEmpty then id :: rest else rest

end Setting

namespace Plan

/-- The barren needs of the first group all of whose alternatives have one. -/
def starvedGroup (barren : List Int) : List (List (List Int)) → List Int
  | [] => []
  | group :: groups =>
    let dead := group.map fun needs => needs.filter barren.contains
    if dead.all fun d => !d.isEmpty then dead.flatten else starvedGroup barren groups

/-- The resources that starve a plan: the required ones that are barren, or else those of a
group that has no alternative without one. -/
def starved (plan : Plan) (barren : List Int) : List Int :=
  let required := plan.required.filter barren.contains
  if required.isEmpty then starvedGroup barren plan.alternatives else required

/-- Why a plan has no free time, or no piece long enough when `freeBeforeSlicing` is set.
The plan is run again without bookings, without exclusions and without both. -/
def explain (s : Setting) (plan : Plan) (freeBeforeSlicing : Bool) :
    Except NoAnswer Explanation := do
  let involved := plan.involved.toList
  if freeBeforeSlicing then
    return .about .partiallyBlocked involved
      "free time exists but no interval is as long as the slot duration"
  let starved := plan.starved (← s.barren involved)
  if !starved.isEmpty then
    return .about .noPositiveRule starved "no availability rule produces time in the period"
  let inputs := s.inputs
  let rulesAlone ← plan.run { s with inputs := inputs.withoutBusy.withoutExclusions }
  if rulesAlone.isEmpty then
    return .about .partiallyBlocked involved
      "availability rules of the selected resources never coincide"
  let withBusy ← plan.run { s with inputs := inputs.withoutExclusions }
  if withBusy.isEmpty then
    return .about .fullyBlockedByBusy (involved.filter inputs.hasBusy)
      "busy events cover all remaining time"
  let withExclusions ← plan.run { s with inputs := inputs.withoutBusy }
  if withExclusions.isEmpty then
    return .about .fullyBlockedByNegativeRule (involved.filter inputs.hasExclusions)
      "exclusion rules cover all remaining time"
  return .about .partiallyBlocked
    (involved.filter fun id => inputs.hasBusy id || inputs.hasExclusions id)
    "busy events and exclusion rules together cover all remaining time"

end Plan

end FreeTime
