-- Rules: when resources are open and when they are closed. A rule names the same hours on each
-- of its dates; its kind says which dates those are.
import FreeTime.Rule.Kind
import FreeTime.TimeRange

namespace FreeTime

/-- A rule that opens its resources, or closes them when `excludes` is set. Each kind of rule
reads the fields it needs and leaves the others alone. -/
structure Rule where
  id : Int
  kind : RuleKind
  excludes : Bool
  first : Option Date
  last : Option Date
  date : Option Date
  hours : TimeRange
  weekdays : Option Nat
  dayOfMonth : Option Nat
  interval : Option Nat
  resources : List Int
deriving DecidableEq

/-- One fact for each time that a rule names a resource. -/
def Rule.facts (r : Rule) : List (Int × Rule) := r.resources.map fun id => (id, r)

end FreeTime
