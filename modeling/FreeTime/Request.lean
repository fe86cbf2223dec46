-- Requests and what is made of them. A request is as it came in, with names as plain text; a
-- query is a request that passed every check.
import FreeTime.Filter
import FreeTime.Period
import FreeTime.Selection
import FreeTime.Slot.Slicing

namespace FreeTime

/-! ## Requests -/

/-- How ancestors are asked to join. -/
structure AncestorOptions where
  mode : String
  relationTypes : Option (List Int)
deriving DecidableEq

/-- An ancestor filter with its modes as text. -/
structure AncestorFilterRequest where
  type : Int
  properties : List Int
  descendants : Bool
  mode : String
  scope : String
  everyAncestor : Bool
deriving DecidableEq

/-- What is asked: a period, a selection, filters, slicing, and whether to explain. -/
structure Request where
  first : Date
  last : Date
  resources : List Int
  groups : List (List Int)
  propertyFilter : Option PropertyFilter
  ancestors : Option AncestorOptions
  ancestorFilters : List AncestorFilterRequest
  slotMinutes : Option Int
  keepsTail : Bool
  explain : Bool
deriving DecidableEq

/-! ## Queries -/

/-- How ancestors join: those of a group's member with that member, or all of them with the
required resources. -/
inductive AncestorMode where
  | perGroup
  | global
deriving DecidableEq

/-- The mode, and the types of relations that count; all of them when absent. -/
structure AncestorExpansion where
  mode : AncestorMode
  relationTypes : Option (List Int)
deriving DecidableEq

/-- A request that passed every check. -/
structure Query where
  period : Period
  selection : Selection
  propertyFilter : Option PropertyFilter
  ancestors : Option AncestorExpansion
  ancestorFilters : List AncestorFilter
  slicing : Option Slicing
  explain : Bool
deriving DecidableEq

/-- The hierarchy has to be loaded for a query. -/
def Query.needsAncestry (q : Query) : Bool := q.ancestors.isSome || !q.ancestorFilters.isEmpty

/-! ## Limits -/

def mostDays : Int := 31
def mostResources : Nat := 50
def mostGroups : Nat := 10
def mostMembers : Nat := 50
def mostProperties : Nat := 20
def mostAncestorFilters : Nat := 10
def leastSlotMinutes : Int := 5

/-- The minutes of the longest slot: one day. -/
def mostSlotMinutes : Int := 1440

/-! ## Checks -/

def AncestorMode.ofName (name : String) : Except RequestError AncestorMode :=
  if name = "per_group" ∨ name = "perGroup" then .ok .perGroup
  else if name = "global" then .ok .global
  else .error (.unknownAncestorMode name)

def MatchMode.ofName (name : String) : Except RequestError MatchMode :=
  if name = "or" then .ok .any
  else if name = "and" then .ok .all
  else .error (.unknownMatchMode name)

def AncestorScope.ofName (name : String) : Except RequestError AncestorScope :=
  if name = "any_ancestor" ∨ name = "anyAncestor" then .ok .anyAncestor
  else if name = "direct_parent" ∨ name = "directParent" then .ok .directParent
  else if name = "nearest_of_type" ∨ name = "nearestOfType" then .ok .nearestOfType
  else .error (.unknownScope name)

/-- All ids are positive; else the first that is not is named. -/
def checkIds (ids : List Int) : Except RequestError Unit :=
  match ids.find? (· ≤ 0) with
  | some id => .error (.nonPositiveId id)
  | none => .ok ()

/-- A filter names at least one property and not too many. -/
def checkProperties (properties : List Int) : Except RequestError Unit :=
  if properties.isEmpty then .error .noProperties
  else if properties.length > mostProperties then
    .error (.tooManyProperties properties.length mostProperties)
  else .ok ()

/-- One group: it has members, not too many, with positive ids. Repeats are dropped after
they are counted. -/
def checkGroup (index : Nat) (group : List Int) : Except RequestError (List Int) := do
  if group.isEmpty then throw (.emptyGroup index)
  if group.length > mostMembers then throw (.groupTooLarge index group.length mostMembers)
  checkIds group
  return distinct group

/-- The groups one after another, from a given index on. -/
def checkGroups (index : Nat) : List (List Int) → Except RequestError (List (List Int))
  | [] => .ok []
  | group :: groups => do
    let first ← checkGroup index group
    let others ← checkGroups (index + 1) groups
    return first :: others

/-- One ancestor filter with its names understood. -/
def AncestorFilterRequest.check (f : AncestorFilterRequest) :
    Except RequestError AncestorFilter := do
  checkProperties f.properties
  let mode ← MatchMode.ofName f.mode
  let scope ← AncestorScope.ofName f.scope
  return ⟨f.type, f.properties, f.descendants, mode, scope, f.everyAncestor⟩

/-- The ancestor filters one after another. -/
def checkAncestorFilters :
    List AncestorFilterRequest → Except RequestError (List AncestorFilter)
  | [] => .ok []
  | f :: fs => do
    let first ← f.check
    let others ← checkAncestorFilters fs
    return first :: others

namespace Request

/-- The period of a request, not too long. -/
def checkPeriod (r : Request) : Except RequestError Period := do
  let period ← Period.between r.first r.last
  if period.length > mostDays then throw (.periodTooLong period.length mostDays)
  return period

/-- The selection of a request: not empty, not too large, with positive ids. -/
def checkSelection (r : Request) : Except RequestError Selection := do
  if r.resources.isEmpty ∧ r.groups.isEmpty then throw .noResources
  if r.resources.length > mostResources then
    throw (.tooManyResources r.resources.length mostResources)
  checkIds r.resources
  if r.groups.length > mostGroups then throw (.tooManyGroups r.groups.length mostGroups)
  let groups ← checkGroups 0 r.groups
  return ⟨distinct r.resources, groups⟩

/-- How the ancestors of a request join, if they do. -/
def checkAncestors (r : Request) : Except RequestError (Option AncestorExpansion) :=
  match r.ancestors with
  | none => .ok none
  | some options => do
    let mode ← AncestorMode.ofName options.mode
    return some ⟨mode, options.relationTypes⟩

/-- The slicing of a request, if it wants slots of one length. -/
def checkSlicing (r : Request) : Except RequestError (Option Slicing) :=
  match r.slotMinutes with
  | none => .ok none
  | some minutes =>
    if leastSlotMinutes ≤ minutes ∧ minutes ≤ mostSlotMinutes then
      .ok (some ⟨minutes * minuteMs, r.keepsTail⟩)
    else .error (.slotDuration minutes leastSlotMinutes mostSlotMinutes)

/-- The query that a request stands for, or the first check it fails. -/
def validate (r : Request) : Except RequestError Query := do
  let period ← r.checkPeriod
  let selection ← r.checkSelection
  if let some filter := r.propertyFilter then checkProperties filter.properties
  let ancestors ← r.checkAncestors
  if r.ancestorFilters.length > mostAncestorFilters then
    throw (.tooManyAncestorFilters r.ancestorFilters.length mostAncestorFilters)
  let ancestorFilters ← checkAncestorFilters r.ancestorFilters
  let slicing ← r.checkSlicing
  return ⟨period, selection, r.propertyFilter, ancestors, ancestorFilters, slicing, r.explain⟩

/-- What a request has to be, said all at once and without order. -/
structure Valid (r : Request) : Prop where
  period_order : r.first ≤ r.last
  period_length : r.first.daysUntil r.last + 1 ≤ mostDays
  selected : r.resources ≠ [] ∨ r.groups ≠ []
  resource_count : r.resources.length ≤ mostResources
  resource_ids : ∀ id ∈ r.resources, 0 < id
  group_count : r.groups.length ≤ mostGroups
  groups : ∀ g ∈ r.groups, g ≠ [] ∧ g.length ≤ mostMembers ∧ ∀ id ∈ g, 0 < id
  property_filter : ∀ f ∈ r.propertyFilter,
    f.properties ≠ [] ∧ f.properties.length ≤ mostProperties
  ancestor_mode : ∀ a ∈ r.ancestors, a.mode ∈ ["per_group", "perGroup", "global"]
  ancestor_filter_count : r.ancestorFilters.length ≤ mostAncestorFilters
  ancestor_filters : ∀ f ∈ r.ancestorFilters,
    (f.properties ≠ [] ∧ f.properties.length ≤ mostProperties) ∧ f.mode ∈ ["or", "and"] ∧
      f.scope ∈ ["any_ancestor", "anyAncestor", "direct_parent", "directParent",
        "nearest_of_type", "nearestOfType"]
  slot_minutes : ∀ m ∈ r.slotMinutes, leastSlotMinutes ≤ m ∧ m ≤ mostSlotMinutes

end Request

end FreeTime
