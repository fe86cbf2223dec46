-- What is known of each resource: its rules, its bookings and its capacity.
import FreeTime.BusyEvent
import FreeTime.Rule.Occurrence

namespace FreeTime

/-- The rules, booked spans and capacity of each resource, in the order they were given. -/
structure Inputs where
  rules : Int → List Rule
  busy : Int → List Span
  capacity : Int → Nat

namespace Inputs

/-- What facts say of a resource, in their order. -/
def about {α : Type} (id : Int) (facts : List (Int × α)) : List α :=
  (facts.filter fun f => f.1 = id).map Prod.snd

/-- The facts of rules and bookings, put to the resources that they are about. Of several capacities
for one resource the last counts; a resource without one, or with zero, has capacity one. -/
def ofLists (rules : List Rule) (events : List BusyEvent) (capacities : List (Int × Nat)) :
    Inputs where
  rules id := about id (rules.flatMap Rule.facts)
  busy id := about id (events.flatMap BusyEvent.facts)
  capacity id := max 1 ((capacities.reverse.lookup id).getD 1)

def hasBusy (i : Inputs) (id : Int) : Bool := !(i.busy id).isEmpty

def hasExclusions (i : Inputs) (id : Int) : Bool := (i.rules id).any Rule.excludes

def withoutBusy (i : Inputs) : Inputs := { i with busy := fun _ => [] }

def withoutExclusions (i : Inputs) : Inputs :=
  { i with rules := fun id => (i.rules id).filter fun r => !r.excludes }

end Inputs

end FreeTime
