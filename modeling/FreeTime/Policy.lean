-- Policies: what a solver accepts and how it merges.
import FreeTime.Rule.Kind

namespace FreeTime

/-- Which kinds of rules are accepted, whether a resource may be booked up to its capacity,
and whether slots merge only where their sets of resources are the same. -/
structure Policy where
  kinds : List RuleKind
  capacityAware : Bool
  exactSets : Bool
deriving DecidableEq

namespace Policy

/-- Every kind of rule; slots merge by time. -/
def full : Policy := ⟨RuleKind.all, true, false⟩

/-- Weekly rules, single dates and date ranges; slots merge by set. -/
def restricted : Policy := ⟨[.weekly, .singleDate, .dateRange], true, true⟩

def supports (policy : Policy) (kind : RuleKind) : Bool := policy.kinds.contains kind

end Policy

end FreeTime
