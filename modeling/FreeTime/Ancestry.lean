-- The hierarchy of resources: their parents, and what stands above them at any height. The
-- set of all ancestors of a resource is worked out once and kept.
import FreeTime.Reach
import FreeTime.Resource

namespace FreeTime

/-- Parents and types of resources. -/
structure Ancestry where
  relations : List Relation
  types : List (Int × Int)
deriving DecidableEq

/-- The ancestors that were asked for so far. -/
abbrev Closures := List (Int × IdSet)

/-- A walk through the hierarchy that keeps the ancestors it works out. -/
abbrev Walking := StateM Closures

namespace Ancestry

/-- The direct parents of a resource, each once, in the order they are known. A resource that
is related to itself is among its own parents. -/
def parentsOf (g : Ancestry) (id : Int) : List Int :=
  distinct ((g.relations.filter fun r => r.child = id).map Relation.parent)

def typeOf? (g : Ancestry) (id : Int) : Option Int := g.types.reverse.lookup id

/-- Every id that stands above another one. -/
def pool (g : Ancestry) : List Int := g.relations.map Relation.parent

theorem mem_parentsOf {g : Ancestry} {id p : Int} :
    p ∈ g.parentsOf id ↔ ∃ r ∈ g.relations, r.child = id ∧ r.parent = p := by
  simp [parentsOf, and_assoc]

theorem parentsOf_within (g : Ancestry) : Reach.Within g.parentsOf g.pool := by
  intro a b hb
  obtain ⟨r, hr, _, rfl⟩ := mem_parentsOf.mp hb
  exact List.mem_map_of_mem hr

/-- Walk up from a queue of ids. An id that is new is seen; its own ancestors are taken from
the closures where they are known, and its parents queue up where they are not. The id at
which the walk began is never seen. -/
def walkUp (g : Ancestry) (known : Closures) (id : Int) (queue : List Int) (seen : IdSet)
    (h : ∀ p ∈ queue, p ∈ g.pool) : IdSet :=
  match queue, h with
  | [], _ => seen
  | p :: rest, h =>
    if hnew : p = id ∨ p ∈ seen then
      walkUp g known id rest seen fun q hq => h q (List.mem_cons_of_mem _ hq)
    else
      match known.lookup p with
      | some above =>
        walkUp g known id rest ((seen.insert p).union (above.filter (· != id)))
          fun q hq => h q (List.mem_cons_of_mem _ hq)
      | none =>
        walkUp g known id (rest ++ g.parentsOf p) (seen.insert p) fun q hq => by
          rcases List.mem_append.mp hq with hq | hq
          · exact h q (List.mem_cons_of_mem _ hq)
          · exact g.parentsOf_within p q hq
termination_by (Reach.unseen g.pool seen.toList, queue.length)
decreasing_by
  · exact Prod.Lex.right _ (by simp)
  · apply Prod.Lex.left
    rw [not_or] at hnew
    refine Reach.unseen_lt ?_ (h p (by simp)) hnew.2 ?_
    · intro x hx
      exact IdSet.mem_union.mpr (Or.inl (IdSet.mem_insert.mpr (Or.inr hx)))
    · exact IdSet.mem_union.mpr (Or.inl (IdSet.mem_insert.mpr (Or.inl rfl)))
  · apply Prod.Lex.left
    rw [not_or] at hnew
    refine Reach.unseen_lt ?_ (h p (by simp)) hnew.2 ?_
    · intro x hx
      exact IdSet.mem_insert.mpr (Or.inr hx)
    · exact IdSet.mem_insert.mpr (Or.inl rfl)

/-- Everything above a resource, the resource itself left out. -/
def ancestors (g : Ancestry) (id : Int) : Walking IdSet := do
  let known ← get
  match known.lookup id with
  | some above => return above
  | none =>
    let above := g.walkUp known id (g.parentsOf id) .empty (g.parentsOf_within id)
    set ((id, above) :: known)
    return above

def closure (g : Ancestry) : List Int → Walking IdSet
  | [] => return .empty
  | id :: ids => do
    let above ← g.ancestors id
    let others ← g.closure ids
    return above.union others

/-- The levels above a resource, nearest first. -/
def levelsAbove (g : Ancestry) (id : Int) : List (List Int) :=
  Reach.levels g.parentsOf g.pool g.parentsOf_within [id] [id]

/-- The resources of a type in a list, in order. -/
def ofType (g : Ancestry) (type : Int) (ids : List Int) : IdSet :=
  IdSet.ofList (ids.filter fun id => g.typeOf? id = some type)

/-- The ancestors of a type that stand nearest to a resource: those on the lowest level that
has any. -/
def nearestOfType (g : Ancestry) (id type : Int) : IdSet :=
  (((g.levelsAbove id).map (g.ofType type)).find? fun s => !s.isEmpty).getD .empty

end Ancestry

end FreeTime
