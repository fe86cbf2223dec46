-- Loading the hierarchy: everything above some resources is asked for level by level, and the
-- types of all that was found at the end.
import FreeTime.Ancestry
import FreeTime.Source

namespace FreeTime

namespace Source

/-- The parents of a level that are not known yet. -/
def newParents (known : IdSet) (found : List Relation) : IdSet :=
  IdSet.ofList ((found.map Relation.parent).filter fun p => !known.contains p)

/-- Ask for the relations of a level and of the levels above it. Gives the relations, and all
the ids that are known in the end. -/
def collect (s : Source) (types : Option (List Int)) (known level : IdSet) :
    Asking (List Relation × IdSet) :=
  if level.toList = [] then return ([], known)
  else do
    modify (· ++ [.relations level.toList types])
    match _hf : s.relations level.toList types with
    | .error e => throw e
    | .ok found =>
      let above := newParents known found
      let (later, all) ← collect s types (known.union above) above
      return (found ++ later, all)
termination_by (Reach.unseen s.parents known.toList, level.toList.length)
decreasing_by
  rename_i hlevel
  by_cases hnew : newParents known found = .empty
  · rw [hnew]
    have hsame : known.union .empty = known := IdSet.ext_mem fun x => by simp
    rw [hsame]
    apply Prod.Lex.right
    exact List.length_pos_iff.mpr hlevel
  · apply Prod.Lex.left
    have hne : (newParents known found).toList ≠ [] := fun hnil => hnew (IdSet.ext hnil)
    obtain ⟨p, hp⟩ := List.exists_mem_of_ne_nil _ hne
    have hp' : p ∈ newParents known found := hp
    simp only [newParents, IdSet.mem_ofList, List.mem_filter, List.mem_map,
      Bool.not_eq_true', ← Bool.not_eq_true, IdSet.contains_iff] at hp'
    obtain ⟨⟨r, hr, rfl⟩, hk⟩ := hp'
    refine Reach.unseen_lt ?_ (s.parent_mem _hf r hr) hk ?_
    · intro x hx
      exact IdSet.mem_union.mpr (Or.inl hx)
    · exact IdSet.mem_union.mpr (Or.inr hp)

/-- The hierarchy above some resources, over relations of the given types or of all types. -/
def loadAncestry (s : Source) (seeds : List Int) (types : Option (List Int)) :
    Asking Ancestry := do
  let seeds := IdSet.ofList seeds
  let (relations, all) ← s.collect types seeds seeds
  return ⟨relations, ← s.askResourceTypes all.toList⟩

end Source

end FreeTime
