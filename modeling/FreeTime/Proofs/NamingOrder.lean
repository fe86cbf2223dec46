-- The laws of naming. A request may name its resources, groups, properties, filters and types of
-- relations in any order and more than once. None of it shows in an error, in the slots, or in the
-- reason for an empty answer. What it decides is which rules are looked at before nothing is left to
-- look for: where one of them cannot be expanded, it may decide whether there is an answer.
import FreeTime.Proofs.Narrowing
import FreeTime.Proofs.Observing
import FreeTime.Proofs.Restating

namespace FreeTime

/-! ## Requests in other words -/

structure PropertyFilter.Restates (f other : PropertyFilter) : Prop where
  properties : SameEntries f.properties other.properties
  descendants : f.descendants = other.descendants

structure AncestorOptions.Restates (a other : AncestorOptions) : Prop where
  mode : a.mode = other.mode
  relationTypes : Option.Rel SameEntries a.relationTypes other.relationTypes

structure AncestorFilterRequest.Restates (f other : AncestorFilterRequest) : Prop where
  type : f.type = other.type
  properties : SameEntries f.properties other.properties
  descendants : f.descendants = other.descendants
  mode : f.mode = other.mode
  scope : f.scope = other.scope
  everyAncestor : f.everyAncestor = other.everyAncestor

/-- Two requests differ only in the order and the number in which they name resources, groups and
their members, properties, ancestor filters and types of relations. -/
structure Request.Restates (r other : Request) : Prop where
  first : r.first = other.first
  last : r.last = other.last
  resources : SameEntries r.resources other.resources
  groups : Matched SameEntries r.groups other.groups
  propertyFilter : Option.Rel PropertyFilter.Restates r.propertyFilter other.propertyFilter
  ancestors : Option.Rel AncestorOptions.Restates r.ancestors other.ancestors
  ancestorFilters :
    Matched AncestorFilterRequest.Restates r.ancestorFilters other.ancestorFilters
  slotMinutes : r.slotMinutes = other.slotMinutes
  keepsTail : r.keepsTail = other.keepsTail
  explain : r.explain = other.explain

/-! ## Queries in other words -/

structure AncestorExpansion.Restates (a other : AncestorExpansion) : Prop where
  mode : a.mode = other.mode
  relationTypes : Option.Rel SameEntries a.relationTypes other.relationTypes

structure AncestorFilter.Restates (f other : AncestorFilter) : Prop where
  type : f.type = other.type
  properties : SameEntries f.properties other.properties
  descendants : f.descendants = other.descendants
  mode : f.mode = other.mode
  scope : f.scope = other.scope
  everyAncestor : f.everyAncestor = other.everyAncestor

structure Selection.Restates (s other : Selection) : Prop where
  required : SameEntries s.required other.required
  groups : Matched SameEntries s.groups other.groups

structure Query.Restates (q other : Query) : Prop where
  period : q.period = other.period
  selection : q.selection.Restates other.selection
  propertyFilter : Option.Rel PropertyFilter.Restates q.propertyFilter other.propertyFilter
  ancestors : Option.Rel AncestorExpansion.Restates q.ancestors other.ancestors
  ancestorFilters : Matched AncestorFilter.Restates q.ancestorFilters other.ancestorFilters
  slicing : q.slicing = other.slicing
  explain : q.explain = other.explain

theorem sameEntries_distinct {ids other : List Int} (h : SameEntries ids other) :
    SameEntries (distinct ids) (distinct other) := fun id => by
  rw [mem_distinct, mem_distinct, h id]

/-- The filters of a query are those of its request, each with its names understood. -/
theorem matched_checkAncestorFilters {requested : List AncestorFilterRequest}
    {filters : List AncestorFilter} (h : checkAncestorFilters requested = .ok filters) :
    Matched (fun f checked => f.check = .ok checked) requested filters := by
  induction requested generalizing filters with
  | nil =>
    cases h
    exact ⟨by simp, by simp⟩
  | cons f requested ih =>
    rw [checkAncestorFilters] at h
    simp only [bind_eq_ok] at h
    obtain ⟨first, hfirst, others, hothers, ⟨⟩⟩ := h
    obtain ⟨hforth, hback⟩ := ih hothers
    refine ⟨List.forall_mem_cons.mpr ⟨⟨first, by simp, hfirst⟩, fun x hx => ?_⟩,
      List.forall_mem_cons.mpr ⟨⟨f, by simp, hfirst⟩, fun y hy => ?_⟩⟩
    · obtain ⟨y, hy, hxy⟩ := hforth x hx
      exact ⟨y, List.mem_cons_of_mem _ hy, hxy⟩
    · obtain ⟨x, hx, hxy⟩ := hback y hy
      exact ⟨x, List.mem_cons_of_mem _ hx, hxy⟩

theorem restates_of_check {f other : AncestorFilterRequest} (h : f.Restates other)
    {checked checked' : AncestorFilter} (hf : f.check = .ok checked)
    (hother : other.check = .ok checked') : checked.Restates checked' := by
  unfold AncestorFilterRequest.check at hf hother
  simp only [bind_eq_ok] at hf hother
  obtain ⟨_, _, mode, hmode, scope, hscope, ⟨⟩⟩ := hf
  obtain ⟨_, _, mode', hmode', scope', hscope', ⟨⟩⟩ := hother
  rw [h.mode, hmode'] at hmode
  rw [h.scope, hscope'] at hscope
  exact ⟨h.type, h.properties, h.descendants, (Except.ok.inj hmode).symm,
    (Except.ok.inj hscope).symm, h.everyAncestor⟩

theorem restates_of_checkAncestors {r r' : Request} {a a' : Option AncestorExpansion}
    (h : Option.Rel AncestorOptions.Restates r.ancestors r'.ancestors)
    (ha : r.checkAncestors = .ok a) (ha' : r'.checkAncestors = .ok a') :
    Option.Rel AncestorExpansion.Restates a a' := by
  unfold Request.checkAncestors at ha ha'
  generalize r.ancestors = options, r'.ancestors = options' at h ha ha'
  cases h with
  | none =>
    cases ha
    cases ha'
    exact .none
  | some h =>
    simp only [bind_eq_ok] at ha ha'
    obtain ⟨mode, hmode, ⟨⟩⟩ := ha
    obtain ⟨mode', hmode', ⟨⟩⟩ := ha'
    rw [h.mode, hmode'] at hmode
    exact .some ⟨(Except.ok.inj hmode).symm, h.relationTypes⟩

/-- Requests in other words become queries in other words. -/
theorem restates_of_becomes {r r' : Request} (h : r.Restates r') {q q' : Query} (hq : r.Becomes q)
    (hq' : r'.Becomes q') : q.Restates q' where
  period := by
    have hsame : r.checkPeriod = r'.checkPeriod := by
      unfold Request.checkPeriod
      rw [h.first, h.last]
    exact Except.ok.inj (hq.period.symm.trans (hsame.trans hq'.period))
  selection := by
    rw [(Request.checkSelection_eq_ok hq.selection).1, (Request.checkSelection_eq_ok hq'.selection).1]
    exact ⟨sameEntries_distinct h.resources,
      matched_map h.groups fun _ _ hgroup => sameEntries_distinct hgroup⟩
  propertyFilter := by
    rw [hq.propertyFilter, hq'.propertyFilter]
    exact h.propertyFilter
  ancestors := restates_of_checkAncestors h.ancestors hq.ancestors hq'.ancestors
  ancestorFilters :=
    matched_along h.ancestorFilters (matched_checkAncestorFilters hq.ancestorFilters)
      (matched_checkAncestorFilters hq'.ancestorFilters)
      fun _ _ _ _ hsame hf hf' => restates_of_check hsame hf hf'
  slicing := by
    have hsame : r.checkSlicing = r'.checkSlicing := by
      unfold Request.checkSlicing
      rw [h.slotMinutes, h.keepsTail]
    exact Except.ok.inj (hq.slicing.symm.trans (hsame.trans hq'.slicing))
  explain := by rw [hq.explain, hq'.explain, h.explain]

/-! ## Selections in other words -/

namespace Selection

variable {s other : Selection}

theorem ids_of_restates (h : s.Restates other) : s.ids = other.ids := by
  apply IdSet.ext_mem
  intro id
  rw [mem_ids, mem_ids, h.required id]
  exact or_congr Iff.rfl (exists_matched h.groups fun _ _ hgroup => hgroup id)

theorem sensible_of_restates (h : s.Restates other) : s.Sensible ↔ other.Sensible := by
  have hasks : (s.required ≠ [] ∨ s.groups ≠ []) ↔ (other.required ≠ [] ∨ other.groups ≠ []) :=
    or_congr (not_congr (sameEntries_eq_nil h.required)) (not_congr (eq_nil_matched h.groups))
  have hgroups : (∀ g ∈ s.groups, g ≠ []) ↔ ∀ g ∈ other.groups, g ≠ [] :=
    forall_matched h.groups fun _ _ hgroup => not_congr (sameEntries_eq_nil hgroup)
  constructor
  · exact fun hs => ⟨hasks.mp hs.asks, hgroups.mp hs.groups⟩
  · exact fun hs => ⟨hasks.mpr hs.asks, hgroups.mpr hs.groups⟩

theorem restates_kept (h : s.Restates other) (keep : Int → Bool) :
    (s.kept keep).Restates (other.kept keep) where
  required id := by
    simp only [kept, List.mem_filter, h.required id]
  groups := matched_map h.groups fun _ _ hgroup id => by
    simp only [List.mem_filter, hgroup id]

end Selection

/-! ## Who survives -/

namespace Store

variable {s : Store}

theorem hierarchy_of_sameTypes {types types' : Option (List Int)}
    (h : Option.Rel SameEntries types types') : s.hierarchy types = s.hierarchy types' := by
  cases h with
  | none => rfl
  | @some ids ids' h =>
    have hcontains : ∀ id, ids.contains id = ids'.contains id := fun id => by
      rw [Bool.eq_iff_iff, List.contains_iff_mem, List.contains_iff_mem]
      exact h id
    unfold hierarchy allowed
    simp only [Option.all_some, hcontains]

theorem matches_of_restates {f other : AncestorFilter} (h : f.Restates other) {id : Int} :
    s.Matches f id ↔ s.Matches other id := by
  unfold Matches
  rw [h.mode, h.descendants]
  cases other.mode with
  | any => exact exists_sameEntries h.properties
  | all => exact forall_sameEntries h.properties

theorem passes_of_restates {types types' : Option (List Int)}
    (htypes : Option.Rel SameEntries types types') {f other : AncestorFilter}
    (h : f.Restates other) {id : Int} : s.Passes types f id ↔ s.Passes types' other id := by
  have heligible : ∀ x, (s.hierarchy types).Eligible f id x ↔
      (s.hierarchy types').Eligible other id x := fun x => by
    unfold Ancestry.Eligible
    rw [hierarchy_of_sameTypes htypes, h.type, h.scope]
  unfold Passes
  simp only [heligible, matches_of_restates h, h.everyAncestor]

end Store

namespace Query

variable {q other : Query} {s : Store}

theorem relationTypes_of_restates (h : q.Restates other) :
    Option.Rel SameEntries q.relationTypes other.relationTypes := by
  have hancestors := h.ancestors
  unfold relationTypes
  generalize q.ancestors = a, other.ancestors = a' at hancestors ⊢
  cases hancestors with
  | none => exact .none
  | some h => exact h.relationTypes

theorem survives_of_restates (h : q.Restates other) {id : Int} :
    q.Survives s id ↔ other.Survives s id := by
  have hcarries : q.CarriesAsked s id ↔ other.CarriesAsked s id := by
    have hfilters := h.propertyFilter
    unfold CarriesAsked
    generalize q.propertyFilter = f, other.propertyFilter = f' at hfilters ⊢
    cases hfilters with
    | none => simp
    | some hfilter =>
      simp only [Option.mem_def, Option.some.injEq, forall_eq', hfilter.descendants]
      exact forall_sameEntries hfilter.properties
  unfold Survives
  refine and_congr hcarries (forall_matched h.ancestorFilters fun f f' hf => ?_)
  exact Store.passes_of_restates (relationTypes_of_restates h) hf

open Classical in
theorem survivors_of_restates (h : q.Restates other) (s : Store) :
    (q.survivors s).Restates (other.survivors s) := by
  have hkeep : (fun id => decide (q.Survives s id)) = fun id => decide (other.Survives s id) :=
    funext fun id => decide_eq_decide.mpr (survives_of_restates h)
  unfold survivors
  rw [hkeep]
  exact Selection.restates_kept h.selection _

/-! ## The plan for them -/

end Query

namespace Ancestry

variable {g : Ancestry} {selection other : Selection}

theorem aboveAny_of_sameEntries {ids ids' : List Int} (h : SameEntries ids ids') :
    g.aboveAny ids = g.aboveAny ids' := by
  apply IdSet.ext_mem
  intro x
  rw [mem_aboveAny, mem_aboveAny]
  exact exists_sameEntries h

theorem sameEntries_withClosure {ids ids' : List Int} (h : SameEntries ids ids')
    (closure : IdSet) : SameEntries (withClosure ids closure) (withClosure ids' closure) :=
  fun x => by rw [mem_withClosure, mem_withClosure, h x]

theorem planOf_of_restates (h : selection.Restates other) (mode : AncestorMode) :
    (g.planOf selection mode).Restates (g.planOf other mode) := by
  have hids := Selection.ids_of_restates h
  cases mode with
  | global =>
    refine ⟨hids, ?_, matched_map h.groups fun _ _ hgroup => ?_⟩
    · simp only [planOf, globalPlanOf, Plan.required, hids]
      exact sameEntries_withClosure h.required _
    · exact matched_map_sameEntries hgroup _
  | perGroup =>
    refine ⟨hids, ?_, ?_⟩
    · simp only [planOf, perGroupPlanOf, Plan.required, aboveAny_of_sameEntries h.required]
      exact sameEntries_withClosure h.required _
    · simp only [planOf, perGroupPlanOf, Plan.alternatives, List.map_map]
      refine matched_map h.groups fun _ _ hgroup => ?_
      simp only [Function.comp, List.map_map]
      exact matched_map_sameEntries hgroup _

/-- In every plan for a selection a group has an alternative for each of its members. -/
theorem exists_needs (g : Ancestry) (selection : Selection) (mode : AncestorMode) :
    ∃ needs : Int → List Int, (g.planOf selection mode).alternatives =
      selection.groups.map fun group => group.map needs := by
  cases mode with
  | global => exact ⟨fun id => [id], rfl⟩
  | perGroup =>
    refine ⟨fun id => (g.candidateOf id).needs, ?_⟩
    simp [planOf, perGroupPlanOf, Plan.alternatives, Function.comp_def]

end Ancestry

namespace Query

variable {q other : Query} {s : Store}

theorem survivingPlan_of_restates (h : q.Restates other) (s : Store) :
    (q.survivingPlan s).Restates (other.survivingPlan s) := by
  have hsurvivors := survivors_of_restates h s
  have hancestors := h.ancestors
  unfold survivingPlan planOver
  rw [Store.hierarchy_of_sameTypes (relationTypes_of_restates h)]
  generalize q.ancestors = a, other.ancestors = a' at hancestors ⊢
  cases hancestors with
  | none =>
    refine ⟨Selection.ids_of_restates hsurvivors, hsurvivors.required,
      matched_map hsurvivors.groups fun _ _ hgroup => ?_⟩
    exact matched_map_sameEntries hgroup _
  | some hexpansion =>
    simp only [hexpansion.mode]
    exact Ancestry.planOf_of_restates hsurvivors _

theorem exists_needs (q : Query) (g : Ancestry) (selection : Selection) :
    ∃ needs : Int → List Int, (q.planOver g selection).alternatives =
      selection.groups.map fun group => group.map needs := by
  unfold planOver
  cases q.ancestors with
  | none => exact ⟨fun id => [id], rfl⟩
  | some expansion => exact g.exists_needs selection expansion.mode

theorem sensible_survivingPlan (h : (q.survivors s).Sensible) : (q.survivingPlan s).Sensible where
  groups group hgroup := by
    obtain ⟨needs, halternatives⟩ := q.exists_needs (s.hierarchy q.relationTypes) (q.survivors s)
    unfold survivingPlan at hgroup
    rw [halternatives] at hgroup
    obtain ⟨members, hmembers, rfl⟩ := List.mem_map.mp hgroup
    rw [ne_eq, List.map_eq_nil_iff]
    exact h.groups members hmembers
  grounded := q.grounded_planOver _ _

end Query

/-! ## The laws -/

namespace Query

variable {q other : Query} {s : Store}

/-- What queries in other words come to: both are answered alike as the filters leave nothing, or both
come to a plan, and the two plans ask for the same. -/
theorem outcomes_of_restates (hq : q.Checked) (hother : other.Checked) (h : q.Restates other)
    (policy : Policy) (s : Store) :
    let mine := (q.compute policy s.source).outcome.1
    let theirs := (other.compute policy s.source).outcome.1
    (∃ a b : Answer, a.SaysTheSame b ∧ mine = .ok a ∧ theirs = .ok b) ∨
      ∃ (ids : List Int) (plan plan' : Plan), plan.Sensible ∧ plan'.Sensible ∧
        plan.Restates plan' ∧
        mine = q.answer ⟨policy, q.period, s.inputsFor ids q.period⟩ plan ∧
        theirs = other.answer ⟨policy, q.period, s.inputsFor ids q.period⟩ plan' := by
  intro mine theirs
  have hsame := Selection.sensible_of_restates (survivors_of_restates h s)
  by_cases hsensible : (q.survivors s).Sensible
  · have hsensible' := hsame.mp hsensible
    have hplan := survivingPlan_of_restates h s
    have hcompute := compute_of_sensible hq policy hsensible
    have hcompute' := compute_of_sensible hother policy hsensible'
    rw [← Plan.involved_of_restates hplan, ← h.period] at hcompute'
    exact Or.inr ⟨_, _, _, sensible_survivingPlan hsensible, sensible_survivingPlan hsensible', hplan,
      outcome_of_ends hcompute, outcome_of_ends hcompute'⟩
  · have hsensible' := mt hsame.mpr hsensible
    have hmine := outcome_of_ends (compute_of_not_sensible hq policy hsensible)
    have htheirs := outcome_of_ends (compute_of_not_sensible hother policy hsensible')
    refine Or.inl ⟨q.emptied (q.emptiedBy s), other.emptied (other.emptiedBy s), ⟨rfl, ?_⟩, hmine,
      htheirs⟩
    -- Whichever filters are named, the reason is that nothing was left.
    unfold emptied
    rw [h.explain]
    split <;> rfl

end Query

namespace Request

/-- Two valid requests that differ only in the order and the number in which they name things are
refused with the same error, over any store and by any policy. Where both are answered they have the
same slots and, where they are explained, the same reason. If every rule of the store can be expanded
in the period, neither fails in another way: then they are computed alike. -/
theorem the_order_of_naming_does_not_show {r r' : Request} {q q' : Query} (h : r.Restates r')
    (hq : r.validate = .ok q) (hq' : r'.validate = .ok q') (policy : Policy) (s : Store) :
    let mine := (r.compute policy s.source).outcome.1
    let theirs := (r'.compute policy s.source).outcome.1
    (∀ cause, mine = .error (.refused cause) ↔ theirs = .error (.refused cause)) ∧
      (∀ a b, mine = .ok a → theirs = .ok b → a.SaysTheSame b) ∧
      ((∀ rule ∈ s.rules, rule.Expands q.period) → Alike Answer.SaysTheSame mine theirs) := by
  have hbecomes := validate_ok_iff.mp hq
  have hbecomes' := validate_ok_iff.mp hq'
  have hrestates := restates_of_becomes h hbecomes hbecomes'
  have houtcomes := Query.outcomes_of_restates hbecomes.checked hbecomes'.checked hrestates policy s
  unfold compute
  rw [hq, hq']
  dsimp only at houtcomes ⊢
  generalize (q.compute policy s.source).outcome.1 = mine at houtcomes ⊢
  generalize (q'.compute policy s.source).outcome.1 = theirs at houtcomes ⊢
  rcases houtcomes with ⟨a, b, hab, rfl, rfl⟩ | ⟨ids, plan, plan', hp, hp', hplan, rfl, rfl⟩
  · refine ⟨fun cause => by simp, ?_, fun _ => .ok hab⟩
    rintro _ _ ⟨⟩ ⟨⟩
    exact hab
  · have hb : Setting.BooksProperly ⟨policy, q.period, s.inputsFor ids q.period⟩ :=
      booksProperly_ofLists _ _ _ _ _
    refine ⟨fun cause => ?_, fun a b ha hb' => ?_, fun hexpands => ?_⟩
    · rw [Query.answer_refused_iff, Query.answer_refused_iff]
      exact Plan.run_refused_of_restates hplan
    · exact Query.saysTheSame_of_restates hrestates.slicing hrestates.explain hb hp hp' hplan ha hb'
    · have hexpanded : plan.Expanded ⟨policy, q.period, s.inputsFor ids q.period⟩ :=
        Plan.expanded_ofLists (Store.forall_rulesFor hexpands)
      exact Query.answer_of_restates hrestates.slicing hrestates.explain hexpanded hb hp hp' hplan

end Request

/-! ## A room named twice -/

namespace Sample

/-- The first room as the only member of a group. -/
def groupOfOne : Request := { firstRoom with resources := [], groups := [[1]] }

/-- The same group, named twice. -/
def groupTwice : Request := { groupOfOne with groups := [[1], [1]] }

theorem groupTwice_restates : groupOfOne.Restates groupTwice where
  first := rfl
  last := rfl
  resources _ := Iff.rfl
  groups :=
    ⟨by simp [groupOfOne, groupTwice, SameEntries], by simp [groupOfOne, groupTwice, SameEntries]⟩
  propertyFilter := .none
  ancestors := .none
  ancestorFilters :=
    ⟨fun _ hf => (List.not_mem_nil hf).elim, fun _ hf => (List.not_mem_nil hf).elim⟩
  slotMinutes := rfl
  keepsTail := rfl
  explain := rfl

/-- Both rooms, the other way round. -/
def lastDaysBackwards : Request := { lastDays with resources := [2, 1] }

theorem lastDaysBackwards_restates : lastDays.Restates lastDaysBackwards where
  first := rfl
  last := rfl
  resources id := by simp [lastDays, lastDaysBackwards, or_comm]
  groups := ⟨fun _ hg => (List.not_mem_nil hg).elim, fun _ hg => (List.not_mem_nil hg).elim⟩
  propertyFilter := .none
  ancestors := .none
  ancestorFilters :=
    ⟨fun _ hf => (List.not_mem_nil hf).elim, fun _ hf => (List.not_mem_nil hf).elim⟩
  slotMinutes := rfl
  keepsTail := rfl
  explain := rfl

end Sample

/-- Named once or twice, the group is free in the afternoon. -/
theorem named_twice_the_group_is_free_alike :
    let store := Store.ofFixture Sample.roomWithPast
    let query (groups : List (List Int)) : Query :=
      ⟨Sample.day, ⟨[], groups⟩, none, none, [], none, false⟩
    let afternoon : List Slot := [⟨⟨1741780800000, 1741791600000⟩, .ofList [1]⟩]
    Sample.groupOfOne.Restates Sample.groupTwice ∧
      Sample.groupOfOne.validate = .ok (query [[1]]) ∧
      Sample.groupTwice.validate = .ok (query [[1], [1]]) ∧
      (∀ rule ∈ store.rules, rule.Expands Sample.day) ∧
      (Sample.groupTwice.compute .restricted store.source).outcome.1.map Answer.slots =
        .ok afternoon := by
  intro store query afternoon
  have hvalid : Sample.groupOfOne.validate = .ok (query [[1]]) := rfl
  have hvalid' : Sample.groupTwice.validate = .ok (query [[1], [1]]) := rfl
  have hlasting : ∀ rule ∈ store.rules, rule.hours.startMs < rule.hours.stopMs := by decide +kernel
  have hexpands : ∀ rule ∈ store.rules, rule.Expands Sample.day :=
    fun rule hrule => Rule.expands_of_lt (by decide) (hlasting rule hrule)
  have hone : (Sample.groupOfOne.compute .restricted store.source).outcome.1.map Answer.slots =
      .ok afternoon := by cbv
  obtain ⟨_, _, halike⟩ := Request.the_order_of_naming_does_not_show Sample.groupTwice_restates hvalid
    hvalid' .restricted store
  have halike := halike hexpands
  refine ⟨Sample.groupTwice_restates, hvalid, hvalid', hexpands, ?_⟩
  generalize (Sample.groupOfOne.compute .restricted _).outcome.1 = one at hone halike
  generalize (Sample.groupTwice.compute .restricted _).outcome.1 = twice at halike ⊢
  cases halike with
  | error e => cases hone
  | ok h =>
    rw [← hone]
    exact congrArg Except.ok h.slots.symm

/-- The naming decides whether there is an answer. Asked for the first room first there is one, as no
rule opens it; asked for the second room first its dates are stepped through, and never end. -/
theorem the_room_that_is_named_first_shows :
    Sample.lastDays.Restates Sample.lastDaysBackwards ∧
      (∃ q, Sample.lastDays.validate = .ok q) ∧ (∃ q, Sample.lastDaysBackwards.validate = .ok q) ∧
      (Sample.lastDays.compute .full Sample.weekly.source).outcome.1 = .ok ⟨[], []⟩ ∧
      (Sample.lastDaysBackwards.compute .full Sample.weekly.source).outcome.1 =
        .error .neverEnds := by
  have hone : (Sample.lastDays.compute .full Sample.weekly.source).outcome.1 = .ok ⟨[], []⟩ := by cbv
  have hother : (Sample.lastDaysBackwards.compute .full Sample.weekly.source).outcome.1 =
      .error .neverEnds := by cbv
  exact ⟨Sample.lastDaysBackwards_restates, ⟨_, rfl⟩, ⟨_, rfl⟩, hone, hother⟩

end FreeTime
