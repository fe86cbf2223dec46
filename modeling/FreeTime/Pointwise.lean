-- What free time means at a single instant, for a resource and for a plan, said without any
-- list of slots. Solving lists the instants that are meant here.
import FreeTime.Plan

namespace FreeTime

namespace Setting

/-- How many bookings at a time close a resource: its capacity, or one when the policy does
not look at capacities. -/
def limit (s : Setting) (id : Int) : Nat :=
  if s.policy.capacityAware then max 1 (s.inputs.capacity id) else 1

/-- A rule that opens a resource covers an instant with one of its dates. -/
def OpenAt (s : Setting) (id t : Int) : Prop :=
  ∃ r ∈ s.inputs.rules id, r.excludes = false ∧ r.CoversIn s.period t

/-- A rule that closes a resource covers an instant with one of its dates. -/
def ClosedAt (s : Setting) (id t : Int) : Prop :=
  ∃ r ∈ s.inputs.rules id, r.excludes = true ∧ r.CoversIn s.period t

instance (s : Setting) (id t : Int) : Decidable (s.OpenAt id t) :=
  inferInstanceAs (Decidable (∃ r ∈ s.inputs.rules id, _ ∧ _))

instance (s : Setting) (id t : Int) : Decidable (s.ClosedAt id t) :=
  inferInstanceAs (Decidable (∃ r ∈ s.inputs.rules id, _ ∧ _))

/-- At an instant a resource is free when a rule opens it, no rule closes it, and fewer
bookings than its limit cover the instant. -/
def FreeAt (s : Setting) (id t : Int) : Prop :=
  s.OpenAt id t ∧ ¬ s.ClosedAt id t ∧ occupancyAt (s.inputs.busy id) t < s.limit id

instance (s : Setting) (id t : Int) : Decidable (s.FreeAt id t) :=
  inferInstanceAs (Decidable (_ ∧ _ ∧ _))

end Setting

namespace Plan

/-- A plan asks for something: a required resource or a group. -/
def Asks (plan : Plan) : Prop := plan.required ≠ [] ∨ plan.alternatives ≠ []

instance (plan : Plan) : Decidable plan.Asks := inferInstanceAs (Decidable (_ ∨ _))

/-- At an instant a plan can be carried out when it asks for something, all its required
resources are free, and each group has an alternative whose needs are all free. -/
def PossibleAt (s : Setting) (plan : Plan) (t : Int) : Prop :=
  plan.Asks ∧ (∀ id ∈ plan.required, s.FreeAt id t) ∧
    ∀ group ∈ plan.alternatives, ∃ needs ∈ group, ∀ id ∈ needs, s.FreeAt id t

instance (s : Setting) (plan : Plan) (t : Int) : Decidable (plan.PossibleAt s t) :=
  inferInstanceAs (Decidable (_ ∧ _ ∧ _))

end Plan

end FreeTime
