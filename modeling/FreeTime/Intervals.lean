-- The free time of one resource: what its rules open, without what they close and without
-- the time in which it is booked up.
import FreeTime.Inputs
import FreeTime.Occupancy
import FreeTime.Policy
import FreeTime.Slot.Combine
import FreeTime.Slot.Normalize

namespace FreeTime

/-- The time of one resource in a period: opened and closed by rules, and booked. -/
structure Intervals where
  opening : List Span
  closing : List Span
  busy : List Span
  capacity : Nat
deriving DecidableEq

namespace Intervals

/-- The spans that are cut out of what the rules open. Without regard to the capacity every
booking blocks. -/
def blocks (policy : Policy) (i : Intervals) : List Span :=
  i.closing ++ blockingSpans i.busy (if policy.capacityAware then i.capacity else 1)

/-- The free time of a resource, as a normal list of its own slots. -/
def freeSlots (policy : Policy) (id : Int) (i : Intervals) : List Slot :=
  let opened := Slot.normalize policy.exactSets (i.opening.map (Slot.single · id))
  let blocks := i.blocks policy
  if blocks.isEmpty then opened
  else Slot.normalize policy.exactSets (Slot.subtract opened (Span.coalesce blocks))

end Intervals

end FreeTime
