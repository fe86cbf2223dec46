-- The laws of validation: what is known of a query that came out of a request.
import FreeTime.Proofs.Runs
import FreeTime.Proofs.Selections
import FreeTime.Request

namespace FreeTime

/-! ## Requests -/

namespace Request

/-- A request passes its checks and becomes a query, part by part. -/
structure Becomes (r : Request) (q : Query) : Prop where
  period : r.checkPeriod = .ok q.period
  selection : r.checkSelection = .ok q.selection
  properties : ∀ f ∈ r.propertyFilter, checkProperties f.properties = .ok ()
  propertyFilter : q.propertyFilter = r.propertyFilter
  ancestors : r.checkAncestors = .ok q.ancestors
  filterCount : r.ancestorFilters.length ≤ mostAncestorFilters
  ancestorFilters : checkAncestorFilters r.ancestorFilters = .ok q.ancestorFilters
  slicing : r.checkSlicing = .ok q.slicing
  explain : q.explain = r.explain

theorem validate_ok_iff {r : Request} {q : Query} : r.validate = .ok q ↔ r.Becomes q := by
  unfold validate
  cases hfilter : r.propertyFilter with
  | none =>
    simp only [bind_eq_ok, guard_eq_ok, Nat.not_lt]
    constructor
    · rintro ⟨period, hperiod, selection, hselection, ancestors, hancestors, hcount, filters,
        hfilters, slicing, hslicing, ⟨⟩⟩
      exact ⟨hperiod, hselection, by simp [hfilter], hfilter.symm, hancestors, hcount, hfilters,
        hslicing, rfl⟩
    · intro h
      obtain ⟨period, selection, propertyFilter, ancestors, ancestorFilters, slicing, explain⟩ := q
      obtain rfl : propertyFilter = none := h.propertyFilter.trans hfilter
      obtain rfl : explain = r.explain := h.explain
      exact ⟨_, h.period, _, h.selection, _, h.ancestors, h.filterCount, _, h.ancestorFilters,
        _, h.slicing, rfl⟩
  | some filter =>
    simp only [bind_eq_ok, guard_eq_ok, Nat.not_lt]
    constructor
    · rintro ⟨period, hperiod, selection, hselection, ⟨⟩, hproperties, ancestors, hancestors, hcount,
        filters, hfilters, slicing, hslicing, ⟨⟩⟩
      exact ⟨hperiod, hselection, by simpa [hfilter] using hproperties, hfilter.symm, hancestors,
        hcount, hfilters, hslicing, rfl⟩
    · intro h
      obtain ⟨period, selection, propertyFilter, ancestors, ancestorFilters, slicing, explain⟩ := q
      obtain rfl : propertyFilter = some filter := h.propertyFilter.trans hfilter
      obtain rfl : explain = r.explain := h.explain
      exact ⟨_, h.period, _, h.selection, _, h.properties filter hfilter, _, h.ancestors,
        h.filterCount, _, h.ancestorFilters, _, h.slicing, rfl⟩

end Request

/-! ## Selections -/

theorem checkGroup_eq_ok {index : Nat} {group members : List Int}
    (h : checkGroup index group = .ok members) : group ≠ [] ∧ members = distinct group := by
  unfold checkGroup at h
  simp only [bind_eq_ok, guard_eq_ok, List.isEmpty_iff] at h
  obtain ⟨hne, _, ⟨⟩, _, ⟨⟩⟩ := h
  exact ⟨hne, rfl⟩

theorem checkGroups_eq_ok {index : Nat} {groups checked : List (List Int)}
    (h : checkGroups index groups = .ok checked) :
    checked = groups.map distinct ∧ ∀ g ∈ groups, g ≠ [] := by
  induction groups generalizing index checked with
  | nil =>
    cases h
    simp
  | cons group groups ih =>
    rw [checkGroups] at h
    simp only [bind_eq_ok] at h
    obtain ⟨first, hfirst, others, hothers, ⟨⟩⟩ := h
    obtain ⟨hne, rfl⟩ := checkGroup_eq_ok hfirst
    obtain ⟨rfl, hrest⟩ := ih hothers
    exact ⟨rfl, List.forall_mem_cons.mpr ⟨hne, hrest⟩⟩

namespace Request

theorem checkSelection_eq_ok {r : Request} {s : Selection} (h : r.checkSelection = .ok s) :
    s = ⟨distinct r.resources, r.groups.map distinct⟩ ∧ s.Sensible := by
  unfold checkSelection at h
  simp only [bind_eq_ok, guard_eq_ok, List.isEmpty_iff] at h
  obtain ⟨hasks, _, ⟨⟩, _, _, groups, hgroups, ⟨⟩⟩ := h
  obtain ⟨rfl, hne⟩ := checkGroups_eq_ok hgroups
  refine ⟨rfl, ?_, ?_⟩
  · simp only [ne_eq, distinct_eq_nil, List.map_eq_nil_iff]
    exact Decidable.not_and_iff_not_or_not.mp hasks
  · intro g hg
    obtain ⟨group, hgroup, rfl⟩ := List.mem_map.mp hg
    exact fun hnil => hne group hgroup (distinct_eq_nil.mp hnil)

end Request

/-! ## Filters -/

theorem checkProperties_eq_ok {properties : List Int} (h : checkProperties properties = .ok ()) :
    properties ≠ [] := by
  rintro rfl
  cases h

/-- Every filter that passed its checks names a property. -/
theorem checkAncestorFilters_eq_ok {requested : List AncestorFilterRequest}
    {filters : List AncestorFilter} (h : checkAncestorFilters requested = .ok filters) :
    ∀ f ∈ filters, f.properties ≠ [] := by
  induction requested generalizing filters with
  | nil =>
    cases h
    simp
  | cons f requested ih =>
    rw [checkAncestorFilters] at h
    simp only [bind_eq_ok] at h
    obtain ⟨first, hfirst, others, hothers, ⟨⟩⟩ := h
    refine List.forall_mem_cons.mpr ⟨?_, ih hothers⟩
    unfold AncestorFilterRequest.check at hfirst
    simp only [bind_eq_ok] at hfirst
    obtain ⟨⟨⟩, hproperties, mode, _, scope, _, ⟨⟩⟩ := hfirst
    exact checkProperties_eq_ok hproperties

/-! ## Slicing -/

theorem Request.Becomes.unsliced {r : Request} {q : Query} (h : r.Becomes q)
    (hnone : r.slotMinutes = none) : q.slicing = none := by
  have hslicing := h.slicing
  rw [checkSlicing, hnone] at hslicing
  exact (Except.ok.inj hslicing).symm

end FreeTime
