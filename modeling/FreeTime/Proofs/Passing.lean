-- The laws of ancestor filters: which ancestors a filter looks at in each scope, and which
-- resources pass, whatever ancestors are kept already.
import FreeTime.Proofs.Ancestors

namespace FreeTime

theorem IdSet.isEmpty_iff {s : IdSet} : s.isEmpty = true ↔ ∀ x, ¬ x ∈ s := by
  rw [isEmpty, List.isEmpty_iff, List.eq_nil_iff_forall_not_mem]
  rfl

theorem IdSet.eq_empty_iff {s : IdSet} : s = .empty ↔ ∀ x, ¬ x ∈ s := by
  constructor
  · rintro rfl x
    exact IdSet.not_mem_empty
  · exact fun h => IdSet.ext_mem fun x => iff_of_false (h x) IdSet.not_mem_empty

theorem IdSet.not_isEmpty_iff {s : IdSet} : ¬ s.isEmpty = true ↔ ∃ x, x ∈ s := by
  rw [isEmpty_iff]
  constructor
  · intro h
    apply Classical.byContradiction
    intro hno
    exact h fun x hx => hno ⟨x, hx⟩
  · rintro ⟨x, hx⟩ h
    exact h x hx

namespace Ancestry

open Reach (Distance)

variable {g : Ancestry}

/-! ## The nearest of a type -/

theorem mem_ofType {type : Int} {ids : List Int} {x : Int} :
    x ∈ g.ofType type ids ↔ x ∈ ids ∧ g.typeOf? x = some type := by
  simp [ofType]

theorem mem_levelsAbove {id x : Int} {i : Nat} :
    x ∈ (g.levelsAbove id).getD i [] ↔ Distance g.parentsOf (i + 1) id x := by
  rw [levelsAbove, Reach.mem_levels _ (Reach.at_start [id]), Reach.depth_singleton,
    Nat.zero_add, Nat.add_comm]

/-- An id is of a type, and no other id of the type is reached from a resource in fewer steps;
the resource itself does not count. -/
def Nearest (g : Ancestry) (type id x : Int) : Prop :=
  g.typeOf? x = some type ∧ ∃ n, Distance g.parentsOf (n + 1) id x ∧
    ∀ m y, g.typeOf? y = some type → Distance g.parentsOf (m + 1) id y → n ≤ m

/-- The first of several levels that holds any id of a type. -/
theorem mem_find_ofType {type : Int} (levels : List (List Int)) (x : Int) :
    x ∈ ((levels.map (g.ofType type)).find? fun s => !s.isEmpty).getD .empty ↔
      g.typeOf? x = some type ∧ ∃ i, x ∈ levels.getD i [] ∧
        ∀ j y, g.typeOf? y = some type → y ∈ levels.getD j [] → i ≤ j := by
  induction levels with
  | nil => simp
  | cons level levels ih =>
    rw [List.map_cons, List.find?_cons]
    cases hempty : (g.ofType type level).isEmpty with
    | false =>
      -- This level holds one of the type, so it is the first that does.
      rw [← Bool.not_eq_true, IdSet.not_isEmpty_iff] at hempty
      obtain ⟨z, hz⟩ := hempty
      obtain ⟨hzlevel, hztype⟩ := mem_ofType.mp hz
      simp only [Bool.not_false, Option.getD_some, mem_ofType]
      constructor
      · rintro ⟨hx, htype⟩
        exact ⟨htype, 0, hx, fun j _ _ _ => Nat.zero_le j⟩
      · rintro ⟨htype, i, hx, hmin⟩
        obtain rfl : i = 0 := Nat.le_zero.mp (hmin 0 z hztype hzlevel)
        exact ⟨hx, htype⟩
    | true =>
      -- This level holds none, and every later level is one place further on.
      rw [IdSet.isEmpty_iff] at hempty
      have hnone : ∀ y ∈ level, g.typeOf? y ≠ some type :=
        fun y hy ht => hempty y (mem_ofType.mpr ⟨hy, ht⟩)
      simp only [Bool.not_true, ih]
      apply and_congr_right
      intro htype
      constructor
      · rintro ⟨i, hx, hmin⟩
        refine ⟨i + 1, hx, fun j y hy hj => ?_⟩
        cases j with
        | zero => exact absurd hy (hnone y hj)
        | succ j => exact Nat.succ_le_succ (hmin j y hy hj)
      · rintro ⟨i, hx, hmin⟩
        cases i with
        | zero => exact absurd htype (hnone x hx)
        | succ i => exact ⟨i, hx, fun j y hy hj => Nat.le_of_succ_le_succ (hmin (j + 1) y hy hj)⟩

theorem mem_nearestOfType {id type x : Int} :
    x ∈ g.nearestOfType id type ↔ g.Nearest type id x := by
  rw [nearestOfType, mem_find_ofType]
  simp only [mem_levelsAbove]
  rfl

/-! ## Who is looked at -/

/-- An id is an ancestor of a resource that a filter looks at. -/
def Eligible (g : Ancestry) (f : AncestorFilter) (id x : Int) : Prop :=
  match f.scope with
  | .anyAncestor => g.typeOf? x = some f.type ∧ g.Above id x
  | .directParent => g.typeOf? x = some f.type ∧ x ∈ g.parentsOf id
  | .nearestOfType => g.Nearest f.type id x

/-- The ancestors that a filter looks at, worked out with nothing kept. -/
def eligibleOf (g : Ancestry) (id : Int) (f : AncestorFilter) : IdSet :=
  match f.scope with
  | .anyAncestor => (g.above id).filter fun a => g.typeOf? a = some f.type
  | .directParent => g.ofType f.type (g.parentsOf id)
  | .nearestOfType => g.nearestOfType id f.type

theorem mem_eligibleOf {id x : Int} {f : AncestorFilter} :
    x ∈ g.eligibleOf id f ↔ g.Eligible f id x := by
  unfold eligibleOf Eligible
  cases f.scope with
  | anyAncestor => simp [and_comm]
  | directParent => simp [mem_ofType, and_comm]
  | nearestOfType => exact mem_nearestOfType

theorem settled_eligible (g : Ancestry) (id : Int) (f : AncestorFilter) :
    g.Settled (g.eligible id f) (g.eligibleOf id f) := by
  unfold eligible eligibleOf
  cases f.scope with
  | anyAncestor => exact settled_bind (g.settled_ancestors id) (g.settled_pure _)
  | directParent => exact g.settled_pure _
  | nearestOfType => exact g.settled_pure _

/-! ## Who passes -/

/-- A resource passes a filter: the filter looks at some ancestor, and some ancestor that it looks
at carries the properties, or all of them do. -/
def Admits (g : Ancestry) (f : ResolvedFilter) (id : Int) : Prop :=
  (∃ x, g.Eligible f.filter id x) ∧
    if f.filter.everyAncestor then ∀ x, g.Eligible f.filter id x → x ∈ f.carriers
    else ∃ x, g.Eligible f.filter id x ∧ x ∈ f.carriers

/-- The decision of a filter, worked out with nothing kept. -/
def admits (g : Ancestry) (f : ResolvedFilter) (id : Int) : Bool :=
  let eligible := g.eligibleOf id f.filter
  if eligible.isEmpty then false
  else if f.filter.everyAncestor then eligible.toList.all f.carriers.contains
  else eligible.toList.any f.carriers.contains

theorem admits_iff {f : ResolvedFilter} {id : Int} : g.admits f id = true ↔ g.Admits f id := by
  unfold admits Admits
  simp only
  by_cases hempty : (g.eligibleOf id f.filter).isEmpty = true
  · rw [if_pos hempty]
    simp only [IdSet.isEmpty_iff, mem_eligibleOf] at hempty
    simp [hempty]
  · have hsome : ∃ x, g.Eligible f.filter id x := by
      simpa only [mem_eligibleOf] using IdSet.not_isEmpty_iff.mp hempty
    rw [if_neg hempty]
    split
    · simp only [List.all_eq_true, IdSet.contains_iff, ← IdSet.mem_def, mem_eligibleOf, hsome,
        true_and]
    · simp only [List.any_eq_true, IdSet.contains_iff, ← IdSet.mem_def, mem_eligibleOf, hsome,
        true_and]

theorem settled_passes (g : Ancestry) (f : ResolvedFilter) (id : Int) :
    g.Settled (g.passes f id) (g.admits f id) := by
  refine settled_bind (g.settled_eligible id f.filter) ?_
  unfold admits
  simp only
  split
  · exact g.settled_pure false
  · split
    · exact g.settled_pure _
    · exact g.settled_pure _

theorem settled_passesAll (g : Ancestry) (id : Int) (fs : List ResolvedFilter) :
    g.Settled (g.passesAll id fs) (fs.all fun f => g.admits f id) := by
  induction fs with
  | nil => exact g.settled_pure true
  | cons f fs ih =>
    refine settled_bind (g.settled_passes f id) ?_
    cases hadmits : g.admits f id with
    | true => simpa [hadmits] using ih
    | false => simpa [hadmits] using g.settled_pure false

theorem settled_retainPassing (g : Ancestry) (fs : List ResolvedFilter) (ids : List Int) :
    g.Settled (g.retainPassing fs ids) (ids.filter fun id => fs.all fun f => g.admits f id) := by
  induction ids with
  | nil => exact g.settled_pure []
  | cons id ids ih =>
    refine settled_bind (g.settled_passesAll id fs) (settled_bind ih ?_)
    rw [List.filter_cons]
    exact g.settled_pure _

end Ancestry

end FreeTime
