-- The laws of plans whose ancestors join: what they read, and that the plan in which each member
-- brings its own ancestors asks for no more than the one in which all of them are required.
import FreeTime.Compute
import FreeTime.Proofs.Passing
import FreeTime.Proofs.Plans
import FreeTime.Proofs.Selections

namespace FreeTime

theorem mem_withClosure {ids : List Int} {closure : IdSet} {x : Int} :
    x ∈ withClosure ids closure ↔ x ∈ ids ∨ x ∈ closure := by
  simp only [withClosure, List.mem_append, List.mem_filter, Bool.not_eq_true',
    List.contains_eq_mem, decide_eq_false_iff_not, ← IdSet.mem_def]
  constructor
  · rintro (h | ⟨h, _⟩)
    · exact Or.inl h
    · exact Or.inr h
  · rintro (h | h)
    · exact Or.inl h
    · by_cases hx : x ∈ ids
      · exact Or.inl hx
      · exact Or.inr ⟨h, hx⟩

/-! ## The two plans -/

namespace Ancestry

variable {g : Ancestry}

/-- The plan of the global mode, worked out with nothing kept. -/
def globalPlanOf (g : Ancestry) (selection : Selection) : Plan :=
  .joint ⟨withClosure selection.required (g.aboveAny selection.ids.toList), selection.groups⟩
    selection.ids

/-- A member of a group with everything above it, worked out with nothing kept. -/
def candidateOf (g : Ancestry) (id : Int) : Candidate := ⟨id, withClosure [id] (g.aboveAny [id])⟩

/-- The plan of the other mode, worked out with nothing kept. -/
def perGroupPlanOf (g : Ancestry) (selection : Selection) : Plan :=
  .perCandidate (withClosure selection.required (g.aboveAny selection.required))
    (selection.groups.map fun group => group.map g.candidateOf) selection.ids

theorem settled_globalPlan (g : Ancestry) (selection : Selection) :
    g.Settled (g.globalPlan selection) (g.globalPlanOf selection) :=
  settled_bind (g.settled_closure selection.ids.toList) (g.settled_pure _)

theorem settled_candidate (g : Ancestry) (id : Int) :
    g.Settled (g.candidate id) (g.candidateOf id) :=
  settled_bind (g.settled_closure [id]) (g.settled_pure _)

theorem settled_perGroupPlan (g : Ancestry) (selection : Selection) :
    g.Settled (g.perGroupPlan selection) (g.perGroupPlanOf selection) := by
  refine settled_bind (g.settled_closure selection.required) (settled_bind ?_ (g.settled_pure _))
  exact settled_mapM _ fun group _ => settled_mapM _ fun id _ => g.settled_candidate id

/-- The plan for a selection, worked out with nothing kept. -/
def planOf (g : Ancestry) (selection : Selection) : AncestorMode → Plan
  | .global => g.globalPlanOf selection
  | .perGroup => g.perGroupPlanOf selection

theorem settled_plan (g : Ancestry) (selection : Selection) (mode : AncestorMode) :
    g.Settled (g.plan selection mode) (g.planOf selection mode) := by
  cases mode with
  | global => exact g.settled_globalPlan selection
  | perGroup => exact g.settled_perGroupPlan selection

end Ancestry

namespace Plan

/-- One plan asks for less than another one: both read the same resources, and where the second
can be carried out the first can be, too. -/
structure Loosens (loose strict : Plan) : Prop where
  involved : loose.involved = strict.involved
  looseGrounded : loose.Grounded
  strictGrounded : strict.Grounded
  possible : ∀ s t, strict.PossibleAt s t → loose.PossibleAt s t

end Plan

namespace Ancestry

variable {g : Ancestry} {selection : Selection}

theorem mem_needs {id x : Int} :
    x ∈ (g.candidateOf id).needs ↔ x = id ∨ g.Above id x := by
  simp [candidateOf, mem_withClosure]

theorem involved_globalPlanOf {x : Int} :
    x ∈ (g.globalPlanOf selection).involved ↔
      x ∈ selection.ids ∨ ∃ id ∈ selection.ids, g.Above id x := by
  simp only [globalPlanOf, Plan.mem_involved, Plan.required, mem_withClosure, mem_aboveAny,
    Plan.alternatives, List.mem_map, ← IdSet.mem_def]
  constructor
  · rintro ((h | h) | ⟨_, ⟨group, hgroup, rfl⟩, _, hneeds, hx⟩)
    · exact Or.inl (Selection.mem_ids.mpr (Or.inl h))
    · exact Or.inr h
    · obtain ⟨id, hid, rfl⟩ := List.mem_map.mp hneeds
      rw [List.mem_singleton] at hx
      exact Or.inl (Selection.mem_ids.mpr (Or.inr ⟨group, hgroup, hx ▸ hid⟩))
  · rintro (h | h)
    · rcases Selection.mem_ids.mp h with h | ⟨group, hgroup, hx⟩
      · exact Or.inl (Or.inl h)
      · exact Or.inr ⟨_, ⟨group, hgroup, rfl⟩, [x], List.mem_map_of_mem hx, by simp⟩
    · exact Or.inl (Or.inr h)

theorem involved_perGroupPlanOf {x : Int} :
    x ∈ (g.perGroupPlanOf selection).involved ↔
      x ∈ selection.ids ∨ ∃ id ∈ selection.ids, g.Above id x := by
  simp only [perGroupPlanOf, Plan.mem_involved, Plan.required, mem_withClosure, mem_aboveAny,
    Plan.alternatives, List.mem_map, Selection.mem_ids]
  constructor
  · rintro ((h | ⟨id, hid, h⟩) | ⟨_, ⟨_, ⟨group, hgroup, rfl⟩, rfl⟩, _, hneeds, hx⟩)
    · exact Or.inl (Or.inl h)
    · exact Or.inr ⟨id, Or.inl hid, h⟩
    · obtain ⟨_, hc, rfl⟩ := List.mem_map.mp hneeds
      obtain ⟨id, hid, rfl⟩ := List.mem_map.mp hc
      rcases mem_needs.mp hx with rfl | h
      · exact Or.inl (Or.inr ⟨group, hgroup, hid⟩)
      · exact Or.inr ⟨id, Or.inr ⟨group, hgroup, hid⟩, h⟩
  · have hneeds : ∀ group ∈ selection.groups, ∀ id ∈ group, x ∈ (g.candidateOf id).needs →
        ∃ alternatives, (∃ a, (∃ group ∈ selection.groups, group.map g.candidateOf = a) ∧
          a.map Candidate.needs = alternatives) ∧ ∃ needs ∈ alternatives, x ∈ needs :=
      fun group hgroup id hid h => ⟨_, ⟨_, ⟨group, hgroup, rfl⟩, rfl⟩, _,
        List.mem_map_of_mem (List.mem_map_of_mem hid), h⟩
    rintro ((h | ⟨group, hgroup, hid⟩) | ⟨id, h | ⟨group, hgroup, hid⟩, habove⟩)
    · exact Or.inl (Or.inl h)
    · exact Or.inr (hneeds group hgroup x hid (mem_needs.mpr (Or.inl rfl)))
    · exact Or.inl (Or.inr ⟨id, h, habove⟩)
    · exact Or.inr (hneeds group hgroup id hid (mem_needs.mpr (Or.inr habove)))

theorem grounded_globalPlanOf : (g.globalPlanOf selection).Grounded := by
  intro group hgroup needs hneeds
  obtain ⟨members, _, rfl⟩ := List.mem_map.mp hgroup
  obtain ⟨id, _, rfl⟩ := List.mem_map.mp hneeds
  simp

theorem grounded_perGroupPlanOf : (g.perGroupPlanOf selection).Grounded := by
  intro group hgroup needs hneeds
  obtain ⟨members, hmembers, rfl⟩ := List.mem_map.mp hgroup
  obtain ⟨ids, _, rfl⟩ := List.mem_map.mp hmembers
  obtain ⟨c, hc, rfl⟩ := List.mem_map.mp hneeds
  obtain ⟨id, _, rfl⟩ := List.mem_map.mp hc
  exact List.ne_nil_of_mem (mem_needs.mpr (Or.inl rfl))

theorem grounded_planOf (g : Ancestry) (selection : Selection) (mode : AncestorMode) :
    (g.planOf selection mode).Grounded := by
  cases mode with
  | global => exact grounded_globalPlanOf
  | perGroup => exact grounded_perGroupPlanOf

/-- Where everything above the whole selection is free, so is what is above each part of it. -/
theorem possible_perGroupPlanOf {s : Setting} {t : Int}
    (h : (g.globalPlanOf selection).PossibleAt s t) :
    (g.perGroupPlanOf selection).PossibleAt s t := by
  obtain ⟨hasks, hrequired, hgroups⟩ := h
  have habove : ∀ id ∈ selection.ids, ∀ x, g.Above id x → s.FreeAt x t := fun id hid x hx =>
    hrequired x (mem_withClosure.mpr (Or.inr (mem_aboveAny.mpr ⟨id, hid, hx⟩)))
  refine ⟨?_, ?_, ?_⟩
  · -- Without groups the plan asks only through what it requires, which is the same in both.
    by_cases hnone : selection.groups = []
    · refine hasks.imp (fun hreq hnil => hreq ?_) (fun halt hnil => halt (by simp [globalPlanOf,
        Plan.alternatives, hnone]))
      simp only [perGroupPlanOf, globalPlanOf, Plan.required] at hnil ⊢
      rw [List.eq_nil_iff_forall_not_mem] at hnil ⊢
      intro x hx
      refine hnil x ?_
      simp only [mem_withClosure, mem_aboveAny, ← IdSet.mem_def, Selection.mem_ids, hnone,
        List.not_mem_nil, false_and, exists_false, or_false] at hx ⊢
      exact hx
    · exact Or.inr (by simpa [perGroupPlanOf, Plan.alternatives] using hnone)
  · intro x hx
    rcases mem_withClosure.mp hx with hx | hx
    · exact hrequired x (mem_withClosure.mpr (Or.inl hx))
    · obtain ⟨id, hid, hx⟩ := mem_aboveAny.mp hx
      exact habove id (Selection.mem_ids.mpr (Or.inl hid)) x hx
  · intro group hgroup
    obtain ⟨members, hmembers, rfl⟩ := List.mem_map.mp hgroup
    obtain ⟨ids, hids, rfl⟩ := List.mem_map.mp hmembers
    obtain ⟨needs, hneeds, hfree⟩ := hgroups _ (List.mem_map_of_mem hids)
    obtain ⟨id, hid, rfl⟩ := List.mem_map.mp hneeds
    refine ⟨_, List.mem_map_of_mem (List.mem_map_of_mem hid), fun x hx => ?_⟩
    rcases mem_needs.mp hx with rfl | hx
    · exact hfree x (by simp)
    · exact habove id (Selection.mem_ids.mpr (Or.inr ⟨ids, hids, hid⟩)) x hx

theorem loosens_perGroupPlanOf : (g.perGroupPlanOf selection).Loosens (g.globalPlanOf selection)
    where
  involved := IdSet.ext_mem fun x => by rw [involved_perGroupPlanOf, involved_globalPlanOf]
  looseGrounded := grounded_perGroupPlanOf
  strictGrounded := grounded_globalPlanOf
  possible _ _ := possible_perGroupPlanOf

/-- Without groups the two plans are solved in the same way. -/
theorem run_perGroupPlanOf (h : selection.groups = []) (s : Setting) :
    (g.perGroupPlanOf selection).run s = (g.globalPlanOf selection).run s := by
  have habove : g.aboveAny selection.required = g.aboveAny selection.ids.toList :=
    IdSet.ext_mem fun x => by simp [← IdSet.mem_def, Selection.mem_ids, h]
  rw [Plan.run_eq, Plan.run_eq, loosens_perGroupPlanOf.involved]
  simp only [perGroupPlanOf, globalPlanOf, Plan.solving, h, habove, List.map_nil]

end Ancestry

namespace Query

/-- Where ancestors join, the plan is that of the hierarchy, whatever was kept on the way. -/
theorem plan_eq {q : Query} {expansion : AncestorExpansion} (hset : q.ancestors = some expansion)
    {g : Ancestry} {known : Closures} (hknown : g.Exact known) (selection : Selection) :
    q.plan (some g) known selection = g.planOf selection expansion.mode := by
  unfold plan
  rw [hset]
  exact (g.settled_plan selection expansion.mode known hknown).1

end Query

end FreeTime
