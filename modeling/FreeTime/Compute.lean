-- Computing an answer: check the request, narrow the selection by its filters, join the
-- ancestors, ask for rules, bookings and capacities, solve, slice, and explain an empty answer.
import FreeTime.Ancestry.Load
import FreeTime.Explanation
import FreeTime.Filter
import FreeTime.Request

namespace FreeTime

/-- The free slots, and at most one explanation of why there are none. -/
structure Answer where
  slots : List Slot
  explanations : List Explanation
deriving DecidableEq

/-- A list followed by the members of a set that it does not have yet. -/
def withClosure (ids : List Int) (closure : IdSet) : List Int :=
  ids ++ closure.toList.filter fun id => !ids.contains id

namespace Ancestry

/-- The plan in which everything above the selection joins the required resources. -/
def globalPlan (g : Ancestry) (selection : Selection) : Walking Plan := do
  let tag := selection.ids
  let closure ← g.closure tag.toList
  return .joint ⟨withClosure selection.required closure, selection.groups⟩ tag

/-- A member of a group with everything above it. -/
def candidate (g : Ancestry) (id : Int) : Walking Candidate := do
  return ⟨id, withClosure [id] (← g.closure [id])⟩

/-- The plan in which each member of a group brings what is above it. -/
def perGroupPlan (g : Ancestry) (selection : Selection) : Walking Plan := do
  let closure ← g.closure selection.required
  let groups ← selection.groups.mapM fun group => group.mapM g.candidate
  return .perCandidate (withClosure selection.required closure) groups selection.ids

/-- The plan for a selection whose ancestors join in one way or the other. -/
def plan (g : Ancestry) (selection : Selection) : AncestorMode → Walking Plan
  | .global => g.globalPlan selection
  | .perGroup => g.perGroupPlan selection

end Ancestry

namespace Query

/-- The answer when a filter leaves nothing to compute. -/
def emptied (q : Query) (filter : String) : Answer :=
  ⟨[], if q.explain then [.emptySelection filter] else []⟩

/-- The selection after the property filter; none when nothing is left. -/
def filterByProperty (q : Query) (s : Source) : Asking (Option Selection) := do
  match q.propertyFilter with
  | none => return some q.selection
  | some filter =>
    let carriers ← s.resolvePropertyFilter filter
    return q.selection.retain carriers.contains

/-- The hierarchy above a selection, if the query needs it. -/
def loadAncestry (q : Query) (s : Source) (selection : Selection) :
    Asking (Option Ancestry) := do
  if q.needsAncestry then
    return some (← s.loadAncestry selection.ids.toList (q.ancestors.bind (·.relationTypes)))
  else return none

/-- The selection after the ancestor filters, with the ancestors worked out on the way; none
when nothing is left. -/
def filterByAncestors (q : Query) (s : Source) (ancestry : Option Ancestry)
    (selection : Selection) : Asking (Option Selection × Closures) := do
  match ancestry with
  | none => return (some selection, [])
  | some g =>
    if q.ancestorFilters.isEmpty then return (some selection, [])
    let filters ← q.ancestorFilters.mapM s.resolveAncestorFilter
    let (passing, known) := (g.retainPassing filters selection.ids.toList).run []
    return (selection.retain passing.contains, known)

def plan (q : Query) (ancestry : Option Ancestry) (known : Closures) (selection : Selection) :
    Plan :=
  match q.ancestors, ancestry with
  | some expansion, some g => ((g.plan selection expansion.mode).run known).1
  | _, _ => .joint selection selection.ids

/-- What the source knows of the resources of a plan. -/
def askInputs (q : Query) (s : Source) (plan : Plan) : Asking Inputs := do
  let ids := plan.involved.toList
  let rules ← s.askRules ids q.period
  let events ← s.askBusyEvents ids q.period.window
  let capacities ← s.askCapacities ids
  return .ofLists rules events capacities

/-- The free time as it is answered: cut into pieces, if the query wants that. -/
def cut (q : Query) (free : List Slot) : Except NoAnswer (List Slot) :=
  match q.slicing with
  | some slicing => slicing.slice free
  | none => .ok free

/-- The answer of a plan whose inputs are known. -/
def answer (q : Query) (s : Setting) (plan : Plan) : Except NoAnswer Answer := do
  let free ← plan.run s
  let slots ← q.cut free
  if q.explain ∧ slots.isEmpty then
    return ⟨slots, [← plan.explain s !free.isEmpty]⟩
  return ⟨slots, []⟩

/-- What is left of the selection after both filters, with the hierarchy above it and the
ancestors worked out on the way; or the filter that left nothing. -/
def survive (q : Query) (s : Source) :
    Asking (Except String (Selection × Option Ancestry × Closures)) := do
  let some selection ← q.filterByProperty s | return .error "property filter"
  let ancestry ← q.loadAncestry s selection
  let (some selection, known) ← q.filterByAncestors s ancestry selection
    | return .error "ancestor property filters"
  return .ok (selection, ancestry, known)

/-- The plan for a query, or the filter that left nothing to plan with. -/
def planned (q : Query) (s : Source) : Asking (Except String Plan) := do
  return (← q.survive s).map fun (selection, ancestry, known) => q.plan ancestry known selection

def compute (q : Query) (policy : Policy) (s : Source) : Asking Answer := do
  match ← q.planned s with
  | .error filter => return q.emptied filter
  | .ok plan =>
    let inputs ← q.askInputs s plan
    ExceptT.mk (pure (q.answer ⟨policy, q.period, inputs⟩ plan))

end Query

def Request.compute (r : Request) (policy : Policy) (s : Source) : Asking Answer :=
  match r.validate with
  | .ok q => q.compute policy s
  | .error cause => throw (.refused (.invalid cause))

end FreeTime
