-- Filters. A property filter keeps resources by the properties they carry themselves, an
-- ancestor filter by the properties of what stands above them.
import FreeTime.Ancestry
import FreeTime.Source

namespace FreeTime

/-- Keep the resources that carry every one of the properties, or something below each. -/
structure PropertyFilter where
  properties : List Int
  descendants : Bool
deriving DecidableEq

/-- Which ancestors a filter looks at. -/
inductive AncestorScope where
  | anyAncestor
  | directParent
  | nearestOfType
deriving DecidableEq

/-- Keep the resources some of whose ancestors of a type carry the properties, or all of
whose ancestors of that type do. -/
structure AncestorFilter where
  type : Int
  properties : List Int
  descendants : Bool
  mode : MatchMode
  scope : AncestorScope
  everyAncestor : Bool
deriving DecidableEq

/-- An ancestor filter with the resources that carry its properties. -/
structure ResolvedFilter where
  filter : AncestorFilter
  carriers : IdSet
deriving DecidableEq

/-! ## Who carries the properties -/

namespace Source

/-- The resources that carry a property or, with `descendants`, anything below it. -/
def carriersOf (s : Source) (descendants : Bool) (property : Int) : Asking IdSet := do
  let properties ← if descendants then s.askDescendants property else pure [property]
  s.askTagged properties .any

/-- The resources that carry each property of a list and are among those found so far. Once
there are none the other properties are not asked for. -/
def carriersOfEach (s : Source) (descendants : Bool) : Option IdSet → List Int → Asking IdSet
  | found, [] => return found.getD .empty
  | found, property :: properties => do
    let carriers ← s.carriersOf descendants property
    let left := match found with
      | some found => found.inter carriers
      | none => carriers
    if left.isEmpty then return left
    s.carriersOfEach descendants (some left) properties

/-- The resources that a property filter keeps. Several properties without what is below them
are asked for at once. -/
def resolvePropertyFilter (s : Source) (f : PropertyFilter) : Asking IdSet :=
  if f.properties.length > 1 ∧ !f.descendants then s.askTagged f.properties .all
  else s.carriersOfEach f.descendants none f.properties

/-- The resources that carry the properties of a list as the mode asks, joined to those found
so far. Every property is asked for. -/
def carriersByMode (s : Source) (f : AncestorFilter) : Option IdSet → List Int → Asking IdSet
  | found, [] => return found.getD .empty
  | found, property :: properties => do
    let carriers ← s.carriersOf f.descendants property
    let joined := match found, f.mode with
      | none, _ => carriers
      | some found, .any => found.union carriers
      | some found, .all => found.inter carriers
    s.carriersByMode f (some joined) properties

/-- The filter with the resources that carry its properties. -/
def resolveAncestorFilter (s : Source) (f : AncestorFilter) : Asking ResolvedFilter := do
  return ⟨f, ← s.carriersByMode f none f.properties⟩

end Source

/-! ## Which resources pass -/

namespace Ancestry

/-- The ancestors of a resource that a filter looks at: in scope and of the filter's type. -/
def eligible (g : Ancestry) (id : Int) (f : AncestorFilter) : Walking IdSet :=
  match f.scope with
  | .anyAncestor => do return (← g.ancestors id).filter fun a => g.typeOf? a = some f.type
  | .directParent => return g.ofType f.type (g.parentsOf id)
  | .nearestOfType => return g.nearestOfType id f.type

/-- A resource passes if some eligible ancestor carries the properties or, where the filter
says so, all of them do. Without any eligible ancestor it does not pass. -/
def passes (g : Ancestry) (f : ResolvedFilter) (id : Int) : Walking Bool := do
  let eligible ← g.eligible id f.filter
  if eligible.isEmpty then return false
  if f.filter.everyAncestor then return eligible.toList.all f.carriers.contains
  return eligible.toList.any f.carriers.contains

/-- A resource passes all filters; they are tried until one refuses it. -/
def passesAll (g : Ancestry) (id : Int) : List ResolvedFilter → Walking Bool
  | [] => return true
  | f :: fs => do
    if ← g.passes f id then g.passesAll id fs else return false

def retainPassing (g : Ancestry) (fs : List ResolvedFilter) : List Int → Walking (List Int)
  | [] => return []
  | id :: ids => do
    let keep ← g.passesAll id fs
    let others ← g.retainPassing fs ids
    return if keep then id :: others else others

end Ancestry

end FreeTime
