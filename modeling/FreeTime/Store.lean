-- A store that holds everything a source is asked for. Of several resources, rules or
-- bookings with one id it holds the one that came last.
import FreeTime.Inputs
import FreeTime.Reach
import FreeTime.Source

namespace FreeTime

/-- What is loaded into a store, list by list. -/
structure Fixture where
  resources : List Resource
  rules : List Rule
  busyEvents : List BusyEvent
  relations : List Relation
  properties : List PropertyNode
  tags : List PropertyTag
deriving DecidableEq

/-- Resources, rules and bookings with distinct ids; relations, properties and tags in the
order they came. -/
structure Store where
  resources : List Resource
  rules : List Rule
  busyEvents : List BusyEvent
  relations : List Relation
  properties : List PropertyNode
  tags : List PropertyTag
deriving DecidableEq

/-- Put an entry into a list in place of the one with the same id. -/
def replaceById {α : Type} (id : α → Int) (entry : α) (entries : List α) : List α :=
  entries.filter (fun e => id e != id entry) ++ [entry]

namespace Store

def empty : Store := ⟨[], [], [], [], [], []⟩

def insertResource (r : Resource) (s : Store) : Store :=
  { s with resources := replaceById Resource.id r s.resources }

def insertRule (r : Rule) (s : Store) : Store :=
  { s with rules := replaceById Rule.id r s.rules }

def insertBusyEvent (e : BusyEvent) (s : Store) : Store :=
  { s with busyEvents := replaceById BusyEvent.id e s.busyEvents }

def insertRelation (r : Relation) (s : Store) : Store :=
  { s with relations := s.relations ++ [r] }

def insertProperty (n : PropertyNode) (s : Store) : Store :=
  { s with properties := s.properties ++ [n] }

def tag (t : PropertyTag) (s : Store) : Store := { s with tags := s.tags ++ [t] }

/-- The store that holds what a fixture lists, entered one by one. -/
def ofFixture (f : Fixture) : Store :=
  let s := f.resources.foldl (fun s r => s.insertResource r) empty
  let s := f.rules.foldl (fun s r => s.insertRule r) s
  let s := f.busyEvents.foldl (fun s e => s.insertBusyEvent e) s
  let s := f.relations.foldl (fun s r => s.insertRelation r) s
  let s := f.properties.foldl (fun s n => s.insertProperty n) s
  f.tags.foldl (fun s t => s.tag t) s

def resource? (s : Store) (id : Int) : Option Resource := s.resources.find? (·.id = id)

/-- A rule may have a date in a period, by its bounds or its single date. -/
def mayOccur (r : Rule) (p : Period) : Bool :=
  match r.kind with
  | .singleDate => r.date.any p.contains
  | _ => (p.clip r.first r.last).isSome

/-- The rules that are bound to any of the resources and may have a date in the period, in
the order of their ids. -/
def rulesFor (s : Store) (ids : List Int) (p : Period) : List Rule :=
  (s.rules.filter fun r => r.resources.any ids.contains && mayOccur r p).mergeSort
    fun a b => a.id ≤ b.id

/-- The bookings that are bound to any of the resources and overlap the window, in the order
of their starts and ids. -/
def busyEventsFor (s : Store) (ids : List Int) (window : Span) : List BusyEvent :=
  (s.busyEvents.filter fun e => e.resources.any ids.contains && e.span.overlaps window).mergeSort
    BusyEvent.sortsBefore

/-- The capacities of the resources that are known, in the order of their ids. -/
def capacitiesOf (s : Store) (ids : List Int) : List (Int × Nat) :=
  (IdSet.ofList ids).toList.filterMap fun id => (s.resource? id).map fun r => (id, r.capacity)

/-- The types of the resources that are known, in the order of their ids. -/
def typesOf (s : Store) (ids : List Int) : List (Int × Int) :=
  (IdSet.ofList ids).toList.filterMap fun id => (s.resource? id).map fun r => (id, r.type)

/-- The properties entered below a property, in the order they came. -/
def childrenOf (s : Store) (property : Int) : List Int :=
  (s.properties.filter fun n => n.parent = some property).map PropertyNode.id

theorem childrenOf_within (s : Store) :
    Reach.Within s.childrenOf (s.properties.map PropertyNode.id) := by
  intro a b hb
  obtain ⟨n, hn, rfl⟩ := List.mem_map.mp hb
  exact List.mem_map_of_mem (List.mem_filter.mp hn).1

/-- A property, and everything below it level by level. -/
def descendantsOf (s : Store) (property : Int) : List Int :=
  property :: (Reach.levels s.childrenOf (s.properties.map PropertyNode.id) s.childrenOf_within
    [property] [property]).flatten

/-- The properties that a resource carries, in the order they came. -/
def propertiesOf (s : Store) (resource : Int) : List Int :=
  (s.tags.filter fun t => t.resource = resource).map PropertyTag.property

/-- The resources that carry any or all of the properties; without properties there are
none. -/
def carriers (s : Store) (properties : List Int) (mode : MatchMode) : IdSet :=
  if properties.isEmpty then .empty
  else
    (IdSet.ofList (s.tags.map PropertyTag.resource)).filter fun id =>
      let carried := s.propertiesOf id
      match mode with
      | .any => carried.any properties.contains
      | .all => properties.all carried.contains

/-- The relations of one child after another, each child's in the order they came, over the
given types or over all. -/
def relationsOf (s : Store) (children : List Int) (types : Option (List Int)) : List Relation :=
  children.flatMap fun child =>
    s.relations.filter fun r => r.child = child && types.all (·.contains r.type)

/-- Everything the store knows of each resource, whether the period needs it or not. -/
def inputs (s : Store) : Inputs :=
  .ofLists s.rules s.busyEvents (s.resources.map fun r => (r.id, r.capacity))

/-- A store as a source. It never fails. -/
def source (s : Store) : Source where
  rules ids p := .ok (s.rulesFor ids p)
  busyEvents ids window := .ok (s.busyEventsFor ids window)
  capacities ids := .ok (s.capacitiesOf ids)
  descendants property := .ok (s.descendantsOf property)
  tagged properties mode := .ok (s.carriers properties mode)
  relations children types := .ok (s.relationsOf children types)
  resourceTypes ids := .ok (s.typesOf ids)
  parents := s.relations.map Relation.parent
  parent_mem := by
    rintro children types found ⟨⟩ r hr
    obtain ⟨child, _, hr⟩ := List.mem_flatMap.mp hr
    exact List.mem_map_of_mem (List.mem_filter.mp hr).1

end Store

end FreeTime
