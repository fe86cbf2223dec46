-- The laws of properties in a store: what lies below a property, who carries it or something below
-- it, and who is found by several properties at once, the same resources by a property filter and
-- by an ancestor filter that asks for all of the properties.
import FreeTime.Proofs.Loading
import Mathlib

namespace FreeTime

namespace Store

variable {s : Store}

/-! ## Below a property -/

/-- The properties at or below a property. -/
theorem mem_descendantsOf {property q : Int} :
    q ∈ s.descendantsOf property ↔ q = property ∨ Reach.Path s.childrenOf property q := by
  have hlevels : ∀ i, q ∈ (Reach.levels s.childrenOf (s.properties.map PropertyNode.id)
      s.childrenOf_within [property] [property]).getD i [] ↔
        Reach.Distance s.childrenOf (i + 1) property q := fun i => by
    rw [Reach.mem_levels _ (Reach.at_start [property]), Reach.depth_singleton, Nat.zero_add,
      Nat.add_comm]
  rw [descendantsOf, List.mem_cons, Reach.mem_flatten_iff_getD]
  simp only [hlevels, Reach.exists_distance]
  constructor
  · rintro (h | h)
    · exact Or.inl h
    · exact Or.inr h.2
  · rintro (h | h)
    · exact Or.inl h
    · by_cases hq : q = property
      · exact Or.inl hq
      · exact Or.inr ⟨hq, h⟩

/-! ## Who carries properties -/

theorem mem_propertiesOf {resource property : Int} :
    property ∈ s.propertiesOf resource ↔
      ∃ t ∈ s.tags, t.resource = resource ∧ t.property = property := by
  simp [propertiesOf, and_assoc]

theorem mem_carriers {properties : List Int} (h : properties ≠ []) (mode : MatchMode) {id : Int} :
    id ∈ s.carriers properties mode ↔
      match mode with
      | .any => ∃ p ∈ properties, p ∈ s.propertiesOf id
      | .all => ∀ p ∈ properties, p ∈ s.propertiesOf id := by
  have htagged : ∀ p, p ∈ s.propertiesOf id → id ∈ s.tags.map PropertyTag.resource := by
    intro p hp
    obtain ⟨t, ht, rfl, _⟩ := mem_propertiesOf.mp hp
    exact List.mem_map_of_mem ht
  have hne : properties.isEmpty = false := by simpa using h
  rw [carriers, hne]
  simp only [Bool.false_eq_true, if_false, IdSet.mem_filter, IdSet.mem_ofList]
  cases mode with
  | any =>
    simp only [List.any_eq_true, List.contains_iff_mem]
    constructor
    · rintro ⟨_, p, hp, hprops⟩
      exact ⟨p, hprops, hp⟩
    · rintro ⟨p, hprops, hp⟩
      exact ⟨htagged p hp, p, hp, hprops⟩
  | all =>
    simp only [List.all_eq_true, List.contains_iff_mem]
    refine ⟨fun h => h.2, fun hall => ⟨?_, hall⟩⟩
    obtain ⟨p, hp⟩ := List.exists_mem_of_ne_nil _ h
    exact htagged p (hall p hp)

/-- A resource carries a property itself or, with `descendants`, something below it. -/
def Carries (s : Store) (descendants : Bool) (property id : Int) : Prop :=
  ∃ q ∈ s.propertiesOf id,
    q = property ∨ descendants = true ∧ Reach.Path s.childrenOf property q

theorem gives_carriersOf (s : Store) (descendants : Bool) (property : Int) :
    ∃ ids, Gives (s.source.carriersOf descendants property) ids ∧
      ∀ id, id ∈ ids ↔ s.Carries descendants property id := by
  cases descendants with
  | false =>
    refine ⟨s.carriers [property] .any, gives_bind (gives_pure [property]) (gives_ask rfl), ?_⟩
    intro id
    rw [mem_carriers (by simp)]
    simp [Carries]
  | true =>
    refine ⟨s.carriers (s.descendantsOf property) .any,
      gives_bind (gives_ask rfl) (gives_ask rfl), ?_⟩
    intro id
    rw [mem_carriers (by simp [descendantsOf])]
    simp only [mem_descendantsOf, Carries, true_and]
    exact exists_congr fun q => and_comm

/-! ## Property filters -/

/-- Once nobody is left, nobody is left by the other properties either. -/
theorem gives_carriersOfEach_left {descendants : Bool} {left : IdSet} {properties : List Int}
    (h : ∃ ids, Gives (s.source.carriersOfEach descendants (some left) properties) ids ∧
      ∀ id, id ∈ ids ↔ id ∈ left ∧ ∀ p ∈ properties, s.Carries descendants p id) :
    ∃ ids, Gives (if left.isEmpty = true then pure left
        else s.source.carriersOfEach descendants (some left) properties) ids ∧
      ∀ id, id ∈ ids ↔ id ∈ left ∧ ∀ p ∈ properties, s.Carries descendants p id := by
  by_cases hempty : left.isEmpty = true
  · rw [if_pos hempty]
    refine ⟨left, gives_pure left, fun id => ?_⟩
    exact ⟨fun hid => absurd hid (IdSet.isEmpty_iff.mp hempty id), fun h => h.1⟩
  · rw [if_neg hempty]
    exact h

/-- Properties one after another leave those who carry each of them. -/
theorem gives_carriersOfEach (s : Store) (descendants : Bool) (found : Option IdSet)
    (properties : List Int) (h : found ≠ none ∨ properties ≠ []) :
    ∃ ids, Gives (s.source.carriersOfEach descendants found properties) ids ∧
      ∀ id, id ∈ ids ↔ (∀ f ∈ found, id ∈ f) ∧ ∀ p ∈ properties, s.Carries descendants p id := by
  induction properties generalizing found with
  | nil =>
    cases found with
    | none => simp at h
    | some found => exact ⟨found, gives_pure found, by simp⟩
  | cons property properties ih =>
    obtain ⟨carriers, hgives, hcarriers⟩ := s.gives_carriersOf descendants property
    have hleft : ∀ left : IdSet,
        ∃ ids, Gives (s.source.carriersOfEach descendants (some left) properties) ids ∧
          ∀ id, id ∈ ids ↔ id ∈ left ∧ ∀ p ∈ properties, s.Carries descendants p id := by
      intro left
      simpa using ih (some left) (Or.inl (by simp))
    cases found with
    | none =>
      obtain ⟨ids, hrest, hids⟩ := gives_carriersOfEach_left (hleft carriers)
      exact ⟨ids, gives_bind hgives hrest, fun id => by simp [hids, hcarriers]⟩
    | some found =>
      obtain ⟨ids, hrest, hids⟩ := gives_carriersOfEach_left (hleft (found.inter carriers))
      exact ⟨ids, gives_bind hgives hrest, fun id => by simp [hids, hcarriers, and_assoc]⟩

theorem gives_resolvePropertyFilter (s : Store) (f : PropertyFilter) (h : f.properties ≠ []) :
    ∃ ids, Gives (s.source.resolvePropertyFilter f) ids ∧
      ∀ id, id ∈ ids ↔ ∀ p ∈ f.properties, s.Carries f.descendants p id := by
  unfold Source.resolvePropertyFilter
  split
  · rename_i hseveral
    obtain ⟨_, hnot⟩ := hseveral
    refine ⟨s.carriers f.properties .all, gives_ask rfl, fun id => ?_⟩
    rw [mem_carriers h]
    simp only [Bool.not_eq_true'] at hnot
    simp [Carries, hnot]
  · obtain ⟨ids, hgives, hids⟩ := s.gives_carriersOfEach f.descendants none f.properties (Or.inr h)
    exact ⟨ids, hgives, fun id => by simp [hids]⟩

/-! ## Ancestor filters -/

/-- A resource carries the properties of a filter, any of them or all. -/
def Matches (s : Store) (f : AncestorFilter) (id : Int) : Prop :=
  match f.mode with
  | .any => ∃ p ∈ f.properties, s.Carries f.descendants p id
  | .all => ∀ p ∈ f.properties, s.Carries f.descendants p id

/-- Once there is a list, more properties add to it or take from it, as the mode says. -/
theorem gives_carriersByMode_some (s : Store) (f : AncestorFilter) (found : IdSet)
    (properties : List Int) :
    ∃ ids, Gives (s.source.carriersByMode f (some found) properties) ids ∧
      ∀ id, id ∈ ids ↔
        match f.mode with
        | .any => id ∈ found ∨ ∃ p ∈ properties, s.Carries f.descendants p id
        | .all => id ∈ found ∧ ∀ p ∈ properties, s.Carries f.descendants p id := by
  induction properties generalizing found with
  | nil => exact ⟨found, gives_pure found, fun id => by cases f.mode <;> simp⟩
  | cons property properties ih =>
    obtain ⟨carriers, hgives, hcarriers⟩ := s.gives_carriersOf f.descendants property
    cases hmode : f.mode with
    | any =>
      obtain ⟨ids, hrest, hids⟩ := ih (found.union carriers)
      refine ⟨ids, gives_bind hgives ?_, fun id => ?_⟩
      · simp only [hmode]
        exact hrest
      · rw [hids, hmode]
        simp [hcarriers, or_assoc]
    | all =>
      obtain ⟨ids, hrest, hids⟩ := ih (found.inter carriers)
      refine ⟨ids, gives_bind hgives ?_, fun id => ?_⟩
      · simp only [hmode]
        exact hrest
      · rw [hids, hmode]
        simp [hcarriers, and_assoc]

theorem gives_resolveAncestorFilter (s : Store) (f : AncestorFilter) (h : f.properties ≠ []) :
    ∃ resolved, Gives (s.source.resolveAncestorFilter f) resolved ∧ resolved.filter = f ∧
      ∀ id, id ∈ resolved.carriers ↔ s.Matches f id := by
  obtain ⟨property, properties, hproperties⟩ := List.exists_cons_of_ne_nil h
  obtain ⟨carriers, hfirst, hcarriers⟩ := s.gives_carriersOf f.descendants property
  obtain ⟨ids, hrest, hids⟩ := s.gives_carriersByMode_some f carriers properties
  refine ⟨⟨f, ids⟩, gives_bind ?_ (gives_pure _), rfl, fun id => ?_⟩
  · rw [hproperties]
    exact gives_bind hfirst hrest
  · rw [hids, Matches, hproperties]
    cases f.mode <;> simp [hcarriers]

/-! ## The law -/

/-- A property filter keeps just the resources that carry each of its properties, however they are
asked for: at once, or one after another until nobody is left. An ancestor filter with the same
properties finds the same resources where it asks for all of them, and where one is enough it finds
the carriers of any of them. -/
theorem both_filters_find_the_same_carriers (s : Store) {properties : List Int}
    (h : properties ≠ []) (descendants : Bool) :
    ∃ kept, Gives (s.source.resolvePropertyFilter ⟨properties, descendants⟩) kept ∧
      (∀ id, id ∈ kept ↔ ∀ p ∈ properties, s.Carries descendants p id) ∧
      ∀ f : AncestorFilter, f.properties = properties → f.descendants = descendants →
        ∃ found, Gives (s.source.resolveAncestorFilter f) ⟨f, found⟩ ∧
          match f.mode with
          | .all => found = kept
          | .any => ∀ id, id ∈ found ↔ ∃ p ∈ properties, s.Carries descendants p id := by
  obtain ⟨kept, hkept, hmem⟩ := s.gives_resolvePropertyFilter ⟨properties, descendants⟩ h
  refine ⟨kept, hkept, hmem, ?_⟩
  rintro f rfl rfl
  obtain ⟨⟨filter, found⟩, hfound, hfilter, hmatches⟩ := s.gives_resolveAncestorFilter f h
  obtain rfl : filter = f := hfilter
  refine ⟨found, hfound, ?_⟩
  unfold Matches at hmatches
  cases hmode : filter.mode with
  | all =>
    simp only [hmode] at hmatches
    exact IdSet.ext_mem fun id => (hmatches id).trans (hmem id).symm
  | any =>
    simp only [hmode] at hmatches
    exact hmatches

end Store

namespace Sample

/-- A chain of three properties and one that stands alone. Each of three resources carries the one
that stands alone; the first also carries the top of the chain, the second its bottom. -/
def threeRooms : Store :=
  { Store.empty with
    properties := [⟨10, none⟩, ⟨11, some 10⟩, ⟨12, some 11⟩, ⟨20, none⟩]
    tags := [⟨1, 10⟩, ⟨1, 20⟩, ⟨2, 12⟩, ⟨2, 20⟩, ⟨3, 20⟩] }

end Sample

/-- The top of the chain and the one that stands alone, named with a repeat, are both carried by the
first two resources, by the second through what is below the top. One of them is enough for the
third, too. -/
theorem two_resources_carry_both_properties :
    let one : AncestorFilter := ⟨3, [10, 20, 10], true, .any, .anyAncestor, false⟩
    let both : AncestorFilter := { one with mode := .all }
    [10, 20, 10] ≠ ([] : List Int) ∧
      Gives (Sample.threeRooms.source.resolvePropertyFilter ⟨[10, 20, 10], true⟩) (.ofList [1, 2]) ∧
      Gives (Sample.threeRooms.source.resolveAncestorFilter both) ⟨both, .ofList [1, 2]⟩ ∧
      ∃ found, Gives (Sample.threeRooms.source.resolveAncestorFilter one) ⟨one, found⟩ ∧
        3 ∈ found := by
  intro one both
  have hnamed : [10, 20, 10] ≠ ([] : List Int) := by decide
  obtain ⟨kept, hkept, _, hfilters⟩ :=
    Sample.threeRooms.both_filters_find_the_same_carriers hnamed true
  have hrun : (runFrom (Sample.threeRooms.source.resolvePropertyFilter ⟨[10, 20, 10], true⟩) []).1 =
      .ok (.ofList [1, 2]) := by cbv
  obtain rfl : IdSet.ofList [1, 2] = kept := Except.ok.inj (hrun.symm.trans (hkept []))
  obtain ⟨_, hboth, rfl⟩ := hfilters both rfl rfl
  obtain ⟨found, hone, hfound⟩ := hfilters one rfl rfl
  have hcarries : Sample.threeRooms.Carries true 20 3 := ⟨20, by decide, Or.inl rfl⟩
  exact ⟨hnamed, hkept, hboth, found, hone, (hfound 3).mpr ⟨20, by decide, hcarries⟩⟩

end FreeTime
