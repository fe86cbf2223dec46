-- Solving: the time in which several resources are free together. The free time of a resource
-- is worked out once and kept in a cache for the rest of the run.
import FreeTime.Intervals
import FreeTime.Selection

namespace FreeTime

/-- The policy, the period and the inputs of a question. -/
structure Setting where
  policy : Policy
  period : Period
  inputs : Inputs

/-- The free time of the resources that were asked for so far. -/
abbrev Cache := List (Int × List Slot)

/-- A piece of solving: it may give no answer, and it keeps what it cached even then. -/
abbrev Solving := ExceptT NoAnswer (StateM Cache)

namespace Solving

/-- The answer of a piece of solving that starts with nothing cached. -/
def fresh {α : Type} (m : Solving α) : Except NoAnswer α := (m.run.run []).1

end Solving

/-- What two lists of slots share; with no list so far, the next one. -/
def narrow (running : Option (List Slot)) (next : List Slot) : List Slot :=
  match running with
  | some current => Slot.intersect current next
  | none => next

namespace Policy

/-- The time of several candidates as one list, each slot standing for the whole group. -/
def join (policy : Policy) (group : IdSet) (candidates : List (List Slot)) : List Slot :=
  Slot.unionAll policy.exactSets (candidates.map (Slot.retag group))

/-- The slots as they are answered: all with one set, and normal. -/
def finish (policy : Policy) (tag : IdSet) (slots : List Slot) : List Slot :=
  Slot.normalize policy.exactSets (Slot.retag tag slots)

end Policy

namespace Setting

/-- The first rule of a resource that the policy does not accept. -/
def unsupported? (s : Setting) (id : Int) : Option Rule :=
  (s.inputs.rules id).find? fun r => !s.policy.supports r.kind

/-- Every rule of the resources is accepted; else the first one that is not is named. -/
def checkKinds (s : Setting) (ids : List Int) : Except NoAnswer Unit :=
  match ids.findSome? s.unsupported? with
  | some r => .error (.refused (.unsupportedKind r.id r.kind))
  | none => .ok ()

/-- The intervals of a resource whose rules are all accepted. -/
def intervals (s : Setting) (id : Int) : Except NoAnswer Intervals := do
  s.checkKinds [id]
  let (opening, closing) ← Rule.expand s.period (s.inputs.rules id)
  return ⟨opening, closing, s.inputs.busy id, s.inputs.capacity id⟩

/-- The free time of a resource, from the cache if it is there. -/
def free (s : Setting) (id : Int) : Solving (List Slot) := do
  match (← get).lookup id with
  | some slots => return slots
  | none =>
    let intervals ← ExceptT.mk (pure (s.intervals id))
    let slots := intervals.freeSlots s.policy id
    modify ((id, slots) :: ·)
    return slots

/-- Narrow the running time by one resource after another. Once nothing is left the other
resources are not looked at. -/
def meet (s : Setting) : Option (List Slot) → List Int → Solving (Option (List Slot))
  | running, [] => return running
  | running, id :: ids => do
    let next := narrow running (← s.free id)
    if next.isEmpty then return some []
    s.meet (some next) ids

/-- Narrow the running time by one group after another. A group is its set of ids with the
solving of its candidates. Once nothing is left the other groups are not looked at. -/
def meetGroups (s : Setting) :
    Option (List Slot) → List (IdSet × Solving (List (List Slot))) →
      Solving (Option (List Slot))
  | running, [] => return running
  | running, (group, members) :: groups => do
    let joined := s.policy.join group (← members)
    if joined.isEmpty then return some []
    let next := narrow running joined
    if next.isEmpty then return some []
    s.meetGroups (some next) groups

/-- The time in which all required resources and a candidate of each group are free. -/
def together (s : Setting) (required : List Int)
    (groups : List (IdSet × Solving (List (List Slot)))) (tag : IdSet) : Solving (List Slot) := do
  let running ← s.meet none required
  if running = some [] then return []
  match ← s.meetGroups running groups with
  | some slots => return s.policy.finish tag slots
  | none => return []

/-- The time in which a selection is free. No rule of a selected resource may be of a kind
that is not accepted, whether it matters for the answer or not. -/
def solve (s : Setting) (selection : Selection) (tag : IdSet) : Solving (List Slot) := do
  ExceptT.mk (pure (s.checkKinds selection.ids.toList))
  let groups := selection.groups.map fun g => (IdSet.ofList g, g.mapM s.free)
  s.together selection.required groups tag

end Setting

end FreeTime
