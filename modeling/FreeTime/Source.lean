-- Where the data comes from. A source answers questions about rules, bookings, capacities,
-- properties and parents, and may fail at any of them. What is asked is written down, so two
-- computations can be compared by their questions too.
import FreeTime.BusyEvent
import FreeTime.IdSet
import FreeTime.Period
import FreeTime.Resource
import FreeTime.Rule.Basic

namespace FreeTime

/-- The questions a source is asked. -/
inductive Call where
  | rules (ids : List Int) (period : Period)
  | busyEvents (ids : List Int) (window : Span)
  | capacities (ids : List Int)
  | descendants (property : Int)
  | tagged (properties : List Int) (mode : MatchMode)
  | relations (children : List Int) (types : Option (List Int))
  | resourceTypes (ids : List Int)
deriving DecidableEq

/-- The answers of a source. The parents that it can ever name are finitely many. -/
structure Source where
  rules : List Int → Period → Except NoAnswer (List Rule)
  busyEvents : List Int → Span → Except NoAnswer (List BusyEvent)
  capacities : List Int → Except NoAnswer (List (Int × Nat))
  descendants : Int → Except NoAnswer (List Int)
  tagged : List Int → MatchMode → Except NoAnswer IdSet
  relations : List Int → Option (List Int) → Except NoAnswer (List Relation)
  resourceTypes : List Int → Except NoAnswer (List (Int × Int))
  parents : List Int
  parent_mem : ∀ {children types found}, relations children types = .ok found →
    ∀ r ∈ found, r.parent ∈ parents

/-- A computation that asks a source: it may give no answer, and what it asked is kept even then. -/
abbrev Asking := ExceptT NoAnswer (StateM (List Call))

namespace Asking

/-- Write a question down and give its answer. -/
def ask {α : Type} (call : Call) (answer : Except NoAnswer α) : Asking α := do
  modify (· ++ [call])
  ExceptT.mk (pure answer)

/-- The outcome of a computation with the questions it asked, in order. -/
def outcome {α : Type} (m : Asking α) : Except NoAnswer α × List Call := m.run.run []

end Asking

namespace Source

/-- The rules that open or close any of the resources and may have a date in the period. -/
def askRules (s : Source) (ids : List Int) (p : Period) : Asking (List Rule) :=
  .ask (.rules ids p) (s.rules ids p)

def askBusyEvents (s : Source) (ids : List Int) (window : Span) : Asking (List BusyEvent) :=
  .ask (.busyEvents ids window) (s.busyEvents ids window)

def askCapacities (s : Source) (ids : List Int) : Asking (List (Int × Nat)) :=
  .ask (.capacities ids) (s.capacities ids)

def askDescendants (s : Source) (property : Int) : Asking (List Int) :=
  .ask (.descendants property) (s.descendants property)

def askTagged (s : Source) (properties : List Int) (mode : MatchMode) : Asking IdSet :=
  .ask (.tagged properties mode) (s.tagged properties mode)

def askResourceTypes (s : Source) (ids : List Int) : Asking (List (Int × Int)) :=
  .ask (.resourceTypes ids) (s.resourceTypes ids)

end Source

end FreeTime
