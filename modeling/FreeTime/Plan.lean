-- Plans: what a request comes down to once its filters and the parents of its resources are
-- known.
import FreeTime.Solve

namespace FreeTime

/-- A member of a group with everything it needs: itself, and the resources above it. -/
structure Candidate where
  id : Int
  needs : List Int
deriving DecidableEq

/-- Either one selection, or required resources with groups whose members each bring the
resources they need. The answer is tagged with a set of its own. -/
inductive Plan where
  | joint (selection : Selection) (tag : IdSet)
  | perCandidate (required : List Int) (groups : List (List Candidate)) (tag : IdSet)
deriving DecidableEq

namespace Plan

/-- The set with which the answer is tagged. -/
def tag : Plan → IdSet
  | joint _ tag => tag
  | perCandidate _ _ tag => tag

def required : Plan → List Int
  | joint selection _ => selection.required
  | perCandidate required _ _ => required

/-- For each group, what each of its alternatives needs. -/
def alternatives : Plan → List (List (List Int))
  | joint selection _ => selection.groups.map fun g => g.map fun id => [id]
  | perCandidate _ groups _ => groups.map fun g => g.map Candidate.needs

/-- Every resource that the plan reads. -/
def involved : Plan → IdSet
  | joint selection _ => selection.ids
  | perCandidate required groups _ =>
    IdSet.ofList (required ++ (groups.flatten.flatMap Candidate.needs))

/-- The time in which a candidate and all it needs are free. -/
def candidateFree (s : Setting) (c : Candidate) : Solving (List Slot) := do
  return (← s.meet none c.needs).getD []

/-- The time in which a plan can be carried out, worked out with an empty cache. -/
def run (s : Setting) : Plan → Except NoAnswer (List Slot)
  | joint selection tag => (s.solve selection tag).fresh
  | plan@(perCandidate required groups tag) => do
    s.checkKinds plan.involved.toList
    let groups := groups.map fun g =>
      (IdSet.ofList (g.map Candidate.id), g.mapM (candidateFree s))
    (s.together required groups tag).fresh

end Plan

end FreeTime
