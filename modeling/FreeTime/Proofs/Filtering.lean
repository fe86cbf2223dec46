-- The laws of filtering over a store: who is left after both filters, told without the order in
-- which they are tried, and the plan for those who are left.
import FreeTime.Proofs.Expansion
import FreeTime.Proofs.Properties
import FreeTime.Proofs.Validation

namespace FreeTime

/-! ## Who survives -/

/-- A resource passes an ancestor filter: among its ancestors that the filter looks at, of which
there is one, some carry the properties of the filter, or all do. -/
def Store.Passes (s : Store) (types : Option (List Int)) (f : AncestorFilter) (id : Int) : Prop :=
  (∃ x, (s.hierarchy types).Eligible f id x) ∧
    if f.everyAncestor then ∀ x, (s.hierarchy types).Eligible f id x → s.Matches f x
    else ∃ x, (s.hierarchy types).Eligible f id x ∧ s.Matches f x

namespace Query

/-- The types of relations that count for a query; all of them when absent. -/
def relationTypes (q : Query) : Option (List Int) := q.ancestors.bind (·.relationTypes)

/-- A resource carries each property that a query asks of it. -/
def CarriesAsked (q : Query) (s : Store) (id : Int) : Prop :=
  ∀ f ∈ q.propertyFilter, ∀ p ∈ f.properties, s.Carries f.descendants p id

/-- A resource survives the filters of a query: it carries what is asked, and it passes every
ancestor filter. -/
def Survives (q : Query) (s : Store) (id : Int) : Prop :=
  q.CarriesAsked s id ∧ ∀ f ∈ q.ancestorFilters, s.Passes q.relationTypes f id

/-- What validation promises of the filters and the selection of a query. -/
structure Checked (q : Query) : Prop where
  selection : q.selection.Sensible
  properties : ∀ f ∈ q.propertyFilter, f.properties ≠ []
  ancestorFilters : ∀ f ∈ q.ancestorFilters, f.properties ≠ []

end Query

theorem Request.Becomes.checked {r : Request} {q : Query} (h : r.Becomes q) : q.Checked where
  selection := (checkSelection_eq_ok h.selection).2
  properties f hf := checkProperties_eq_ok (h.properties f (h.propertyFilter ▸ hf))
  ancestorFilters := checkAncestorFilters_eq_ok h.ancestorFilters

namespace Query

variable {q : Query} {s : Store}

/-! ## The two filters -/

theorem gives_filterByProperty (hq : q.Checked) (s : Store) :
    ∃ carrying : Int → Bool, (∀ id, carrying id = true ↔ q.CarriesAsked s id) ∧
      Gives (q.filterByProperty s.source) (q.selection.retain carrying) := by
  unfold filterByProperty CarriesAsked
  cases hfilter : q.propertyFilter with
  | none =>
    refine ⟨fun _ => true, by simp, ?_⟩
    rw [Selection.retain_all hq.selection]
    exact gives_pure _
  | some f =>
    obtain ⟨ids, hgives, hids⟩ := s.gives_resolvePropertyFilter f (hq.properties f hfilter)
    exact ⟨ids.contains, by simp [hids], gives_bind hgives (gives_pure _)⟩

/-- What is loaded for a selection: nothing if the query needs no hierarchy, else a mirror of the
whole one. -/
def Loaded (q : Query) (s : Store) (selection : Selection) (ancestry : Option Ancestry) : Prop :=
  (ancestry = none → q.needsAncestry = false) ∧
    ∀ g ∈ ancestry, g.Mirrors (s.hierarchy q.relationTypes) selection.ids.toList

theorem gives_loadAncestry (q : Query) (s : Store) (selection : Selection) :
    ∃ ancestry, Gives (q.loadAncestry s.source selection) ancestry ∧
      q.Loaded s selection ancestry := by
  unfold loadAncestry
  split
  · obtain ⟨g, hgives, hmirrors⟩ :=
      s.gives_loadAncestry selection.ids.toList (q.ancestors.bind (·.relationTypes))
    refine ⟨some g, gives_bind hgives (gives_pure _), by simp, ?_⟩
    rintro _ ⟨⟩
    exact hmirrors
  · rename_i hneeds
    exact ⟨none, gives_pure none, by simpa using hneeds, by simp⟩

/-- The loaded hierarchy lets pass who passes over the whole store. -/
theorem admits_of_mirrors {g : Ancestry} {seeds : List Int} {types : Option (List Int)}
    (hg : g.Mirrors (s.hierarchy types) seeds) {id : Int} (hid : id ∈ seeds) {f : AncestorFilter}
    {resolved : ResolvedFilter} (hfilter : resolved.filter = f)
    (hcarriers : ∀ id, id ∈ resolved.carriers ↔ s.Matches f id) :
    g.Admits resolved id ↔ s.Passes types f id := by
  simp only [Ancestry.Admits, Store.Passes, hfilter, hcarriers,
    Ancestry.eligible_of_mirrors hg hid]

/-- Filters that were resolved one by one let pass together who passes each of them. -/
theorem admits_resolved {g : Ancestry} {selection : Selection}
    (hg : g.Mirrors (s.hierarchy q.relationTypes) selection.ids.toList)
    {resolved : List ResolvedFilter}
    (hback : ∀ r ∈ resolved, ∃ f ∈ q.ancestorFilters, r.filter = f ∧
      ∀ id, id ∈ r.carriers ↔ s.Matches f id)
    (hforth : ∀ f ∈ q.ancestorFilters, ∃ r ∈ resolved, r.filter = f ∧
      ∀ id, id ∈ r.carriers ↔ s.Matches f id) {id : Int} (hid : id ∈ selection.ids) :
    (∀ r ∈ resolved, g.Admits r id) ↔ ∀ f ∈ q.ancestorFilters, s.Passes q.relationTypes f id := by
  constructor
  · intro hadmits f hf
    obtain ⟨r, hr, hfilter, hcarriers⟩ := hforth f hf
    exact (admits_of_mirrors hg hid hfilter hcarriers).mp (hadmits r hr)
  · intro hpasses r hr
    obtain ⟨f, hf, hfilter, hcarriers⟩ := hback r hr
    exact (admits_of_mirrors hg hid hfilter hcarriers).mpr (hpasses f hf)

theorem gives_filterByAncestors (hq : q.Checked) {selection : Selection}
    (hsensible : selection.Sensible) {ancestry : Option Ancestry}
    (hloaded : q.Loaded s selection ancestry) :
    ∃ (passing : Int → Bool) (known : Closures),
      (∀ id ∈ selection.ids, passing id = true ↔
        ∀ f ∈ q.ancestorFilters, s.Passes q.relationTypes f id) ∧
      Gives (q.filterByAncestors s.source ancestry selection) (selection.retain passing, known) ∧
      ∀ g ∈ ancestry, g.Exact known := by
  unfold filterByAncestors
  cases ancestry with
  | none =>
    have hnone : q.ancestorFilters = [] := by
      have := hloaded.1 rfl
      simp only [needsAncestry, Bool.or_eq_false_iff, Bool.not_eq_false', List.isEmpty_iff] at this
      exact this.2
    refine ⟨fun _ => true, [], by simp [hnone], ?_, by simp⟩
    rw [Selection.retain_all hsensible]
    exact gives_pure _
  | some g =>
    simp only
    split
    · rename_i hnone
      rw [List.isEmpty_iff] at hnone
      refine ⟨fun _ => true, [], by simp [hnone], ?_, fun g _ => g.exact_nil⟩
      rw [Selection.retain_all hsensible]
      exact gives_pure _
    · obtain ⟨resolved, hgives, hback, hforth⟩ := gives_mapM q.ancestorFilters fun f hf =>
        s.gives_resolveAncestorFilter f (hq.ancestorFilters f hf)
      have hmirrors := hloaded.2 g rfl
      have hsettled := g.settled_retainPassing resolved selection.ids.toList [] g.exact_nil
      refine ⟨((g.retainPassing resolved selection.ids.toList).run []).1.contains, _, ?_,
        gives_bind hgives (gives_pure _), ?_⟩
      · intro id hid
        rw [hsettled.1]
        simp only [List.contains_iff_mem, List.mem_filter, List.all_eq_true, Ancestry.admits_iff,
          admits_resolved hmirrors hback hforth hid]
        exact and_iff_right hid
      · rintro _ ⟨⟩
        exact hsettled.2

/-! ## Both filters -/

open Classical in
/-- The selection of those who survive, without a look at what is left. -/
noncomputable def survivors (q : Query) (s : Store) : Selection :=
  q.selection.kept fun id => decide (q.Survives s id)

open Classical in
theorem mem_survivors {id : Int} :
    id ∈ (q.survivors s).ids ↔ id ∈ q.selection.ids ∧ q.Survives s id := by
  rw [survivors, Selection.mem_kept_ids, decide_eq_true_eq]

open Classical in
/-- Those who carry what is asked and then pass the ancestor filters are the survivors. -/
theorem survivors_eq {carrying passing : Int → Bool}
    (hcarrying : ∀ id, carrying id = true ↔ q.CarriesAsked s id)
    (hpassing : ∀ id ∈ (q.selection.kept carrying).ids, passing id = true ↔
      ∀ f ∈ q.ancestorFilters, s.Passes q.relationTypes f id) :
    q.survivors s = (q.selection.kept carrying).kept passing := by
  rw [Selection.kept_kept]
  apply Selection.kept_congr
  intro id hid
  rw [Bool.eq_iff_iff, decide_eq_true_eq, Bool.and_eq_true, Survives, hcarrying]
  refine and_congr_right fun hcarries => (hpassing id ?_).symm
  exact Selection.mem_kept_ids.mpr ⟨hid, (hcarrying id).mpr hcarries⟩

/-- What filtering leaves where the survivors can be planned with: them, a mirror of their
hierarchy, and exact closures. -/
structure Left (q : Query) (s : Store) (ancestry : Option Ancestry) (known : Closures) : Prop where
  loaded : q.needsAncestry = true → ancestry.isSome
  mirrors : ∀ g ∈ ancestry, ∃ seeds, (∀ id ∈ (q.survivors s).ids, id ∈ seeds) ∧
    g.Mirrors (s.hierarchy q.relationTypes) seeds
  exact : ∀ g ∈ ancestry, g.Exact known

open Classical in
/-- The filter that is named when nothing is left: the property filter, if those who carry what is
asked already leave nothing, else the ancestor filters. -/
noncomputable def emptiedBy (q : Query) (s : Store) : String :=
  if (q.selection.kept fun id => decide (q.CarriesAsked s id)).Sensible then
    "ancestor property filters"
  else "property filter"

open Classical in
theorem emptiedBy_eq {carrying : Int → Bool}
    (hcarrying : ∀ id, carrying id = true ↔ q.CarriesAsked s id) :
    q.emptiedBy s = if (q.selection.kept carrying).Sensible then "ancestor property filters"
      else "property filter" := by
  have hsame : (fun id => decide (q.CarriesAsked s id)) = carrying := by
    funext id
    rw [Bool.eq_iff_iff, decide_eq_true_eq, hcarrying]
  rw [emptiedBy, hsame]

open Classical in
/-- One filter after the other leaves the survivors of both, or nothing where a group loses all
its members or nobody survives. -/
theorem gives_survive (hq : q.Checked) (s : Store) :
    ((q.survivors s).Sensible ∧ ∃ ancestry known,
      Gives (q.survive s.source) (.ok (q.survivors s, ancestry, known)) ∧ q.Left s ancestry known) ∨
    (¬ (q.survivors s).Sensible ∧ Gives (q.survive s.source) (.error (q.emptiedBy s))) := by
  obtain ⟨carrying, hcarrying, hgives⟩ := gives_filterByProperty hq s
  rw [emptiedBy_eq hcarrying]
  unfold survive
  cases hfirst : q.selection.retain carrying with
  | none =>
    rw [hfirst] at hgives
    have hnot := Selection.retain_eq_none.mp hfirst
    rw [if_neg hnot]
    refine Or.inr ⟨fun hsensible => ?_, gives_bind hgives (gives_pure _)⟩
    -- No hierarchy is loaded here, but the survivors are among those who carry what is asked.
    have hsurvivors : q.survivors s = (q.selection.kept carrying).kept fun id =>
        decide (∀ f ∈ q.ancestorFilters, s.Passes q.relationTypes f id) :=
      survivors_eq hcarrying (by simp)
    rw [hsurvivors] at hsensible
    exact hnot (Selection.sensible_of_kept hsensible)
  | some selection =>
    obtain ⟨rfl, hsensible⟩ := Selection.retain_eq_some.mp hfirst
    rw [hfirst] at hgives
    rw [if_pos hsensible]
    obtain ⟨ancestry, hload, hloaded⟩ := q.gives_loadAncestry s (q.selection.kept carrying)
    obtain ⟨passing, known, hpassing, hfilter, hexact⟩ :=
      gives_filterByAncestors hq hsensible hloaded
    have hsurvivors := survivors_eq hcarrying hpassing
    cases hsecond : (q.selection.kept carrying).retain passing with
    | none =>
      rw [hsecond] at hfilter
      refine Or.inr ⟨?_, gives_bind hgives (gives_bind hload (gives_bind hfilter (gives_pure _)))⟩
      rw [hsurvivors]
      exact Selection.retain_eq_none.mp hsecond
    | some left =>
      obtain ⟨rfl, hleft⟩ := Selection.retain_eq_some.mp hsecond
      rw [hsecond, ← hsurvivors] at hfilter
      refine Or.inl ⟨hsurvivors ▸ hleft, ancestry, known, gives_bind hgives (gives_bind hload
        (gives_bind hfilter (gives_pure _))), ?_, ?_, hexact⟩
      · intro hneeds
        cases ancestry with
        | none => simp [hloaded.1 rfl] at hneeds
        | some g => rfl
      · refine fun g hg => ⟨_, fun id hid => ?_, hloaded.2 g hg⟩
        rw [hsurvivors] at hid
        exact IdSet.mem_def.mp (Selection.mem_kept_ids.mp hid).1

/-! ## The plan for the survivors -/

/-- The plan for a selection over a hierarchy, worked out with nothing kept. -/
def planOver (q : Query) (g : Ancestry) (selection : Selection) : Plan :=
  match q.ancestors with
  | none => .joint selection selection.ids
  | some expansion => g.planOf selection expansion.mode

theorem planOf_of_mirrors {g whole : Ancestry} {seeds : List Int} (h : g.Mirrors whole seeds)
    {selection : Selection} (hids : ∀ id ∈ selection.ids, id ∈ seeds) (mode : AncestorMode) :
    g.planOf selection mode = whole.planOf selection mode := by
  have habove : ∀ ids : List Int, (∀ id ∈ ids, id ∈ selection.ids) →
      g.aboveAny ids = whole.aboveAny ids := by
    intro ids hsub
    apply IdSet.ext_mem
    intro x
    simp only [Ancestry.mem_aboveAny]
    exact exists_congr fun id => and_congr_right fun hid =>
      Ancestry.above_of_mirrors h (hids id (hsub id hid))
  have hrequired : ∀ id ∈ selection.required, id ∈ selection.ids :=
    fun id hid => Selection.mem_ids.mpr (Or.inl hid)
  cases mode with
  | global => simp only [Ancestry.planOf, Ancestry.globalPlanOf, habove _ fun _ h => h]
  | perGroup =>
    have hcandidates : selection.groups.map (fun group => group.map g.candidateOf) =
        selection.groups.map fun group => group.map whole.candidateOf := by
      apply List.map_congr_left
      intro group hgroup
      apply List.map_congr_left
      intro id hid
      have hmem : id ∈ selection.ids := Selection.mem_ids.mpr (Or.inr ⟨group, hgroup, hid⟩)
      rw [Ancestry.candidateOf, Ancestry.candidateOf, habove [id] (by simpa using hmem)]
    simp only [Ancestry.planOf, Ancestry.perGroupPlanOf, habove _ hrequired, hcandidates]

/-- The loaded hierarchy plans for the survivors as the whole one does. -/
theorem plan_of_left {ancestry : Option Ancestry} {known : Closures}
    (h : q.Left s ancestry known) :
    q.plan ancestry known (q.survivors s) =
      q.planOver (s.hierarchy q.relationTypes) (q.survivors s) := by
  cases hset : q.ancestors with
  | none => simp only [plan, planOver, hset]
  | some expansion =>
    obtain ⟨g, rfl⟩ := Option.isSome_iff_exists.mp (h.loaded (by simp [needsAncestry, hset]))
    obtain ⟨seeds, hseeds, hmirrors⟩ := h.mirrors g rfl
    rw [plan_eq hset (h.exact g rfl), planOf_of_mirrors hmirrors hseeds, planOver, hset]

theorem gives_planned_of_sensible (hq : q.Checked) (h : (q.survivors s).Sensible) :
    Gives (q.planned s.source)
      (.ok (q.planOver (s.hierarchy q.relationTypes) (q.survivors s))) := by
  unfold planned
  rcases gives_survive hq s with ⟨_, ancestry, known, hgives, hleft⟩ | ⟨hnot, _⟩
  · rw [← plan_of_left hleft]
    exact gives_bind hgives (gives_pure _)
  · exact absurd h hnot

theorem gives_planned_of_not_sensible (hq : q.Checked) (h : ¬ (q.survivors s).Sensible) :
    Gives (q.planned s.source) (.error (q.emptiedBy s)) := by
  unfold planned
  rcases gives_survive hq s with ⟨hsensible, _⟩ | ⟨_, hgives⟩
  · exact absurd hsensible h
  · exact gives_bind hgives (gives_pure _)

theorem gives_planned (hq : q.Checked) (s : Store) :
    ((q.survivors s).Sensible ∧ Gives (q.planned s.source)
      (.ok (q.planOver (s.hierarchy q.relationTypes) (q.survivors s)))) ∨
    (¬ (q.survivors s).Sensible ∧ ∃ filter, Gives (q.planned s.source) (.error filter)) := by
  by_cases h : (q.survivors s).Sensible
  · exact Or.inl ⟨h, gives_planned_of_sensible hq h⟩
  · exact Or.inr ⟨h, _, gives_planned_of_not_sensible hq h⟩

end Query

/-! ## The laws -/

namespace Request

/-- A selected resource survives the filters of a request just if it carries the properties that
are asked for and passes each ancestor filter. Where every group keeps a member and somebody is
left, the survivors are planned with in the order in which they were asked for, over the
hierarchy of the whole store; else the answer is empty. -/
theorem the_filters_leave_those_who_survive {r : Request} {q : Query} (h : r.validate = .ok q)
    (policy : Policy) (s : Store) :
    (∀ id, id ∈ (q.survivors s).ids ↔ id ∈ q.selection.ids ∧ q.Survives s id) ∧
      ((q.survivors s).Sensible → (q.planned s.source).outcome.1 =
        .ok (.ok (q.planOver (s.hierarchy q.relationTypes) (q.survivors s)))) ∧
      (¬ (q.survivors s).Sensible → ∃ filter,
        (r.compute policy s.source).outcome.1 = .ok (q.emptied filter)) := by
  have hchecked := (validate_ok_iff.mp h).checked
  refine ⟨fun id => Query.mem_survivors, fun hsensible => ?_, fun hnot => ?_⟩
  · rcases Query.gives_planned hchecked s with ⟨_, hgives⟩ | ⟨hnot, _⟩
    · exact hgives []
    · exact absurd hsensible hnot
  · rcases Query.gives_planned hchecked s with ⟨hsensible, _⟩ | ⟨_, filter, hgives⟩
    · exact absurd hsensible hnot
    · refine ⟨filter, ?_⟩
      have hcompute : Gives (q.compute policy s.source) (q.emptied filter) :=
        gives_bind hgives (gives_pure _)
      rw [compute, h]
      exact hcompute []

end Request

/-! ## A room in a quiet building -/

namespace Sample

/-- One of two rooms with a screen, in a building that is quiet. -/
def screenInQuiet : Request where
  first := wednesday
  last := wednesday
  resources := []
  groups := [[1, 2]]
  propertyFilter := some ⟨[7], false⟩
  ancestors := none
  ancestorFilters := [⟨2, [8], false, "or", "direct_parent", false⟩]
  slotMinutes := none
  keepsTail := false
  explain := true

def screenInQuietQuery : Query :=
  ⟨day, ⟨[], [[1, 2]]⟩, some ⟨[7], false⟩, none, [⟨2, [8], false, .any, .directParent, false⟩], none,
    true⟩

/-- Both rooms have a screen; only the second stands in a building, which is quiet. -/
def screens : Store where
  resources := [⟨1, 1, 1⟩, ⟨2, 1, 1⟩, ⟨3, 2, 1⟩]
  rules := [openRule]
  busyEvents := []
  relations := [⟨3, 2, 1⟩]
  properties := []
  tags := [⟨1, 7⟩, ⟨2, 7⟩, ⟨3, 8⟩]

end Sample

/-- The second room alone survives, so it alone is planned with. -/
theorem the_second_room_survives :
    Sample.screenInQuietQuery.Survives Sample.screens 2 ∧
      ¬ Sample.screenInQuietQuery.Survives Sample.screens 1 ∧
      (Sample.screenInQuietQuery.planned Sample.screens.source).outcome.1 =
        .ok (.ok (.joint ⟨[], [[2]]⟩ (.ofList [2]))) := by
  obtain ⟨hids, hplan, hempty⟩ :=
    Request.the_filters_leave_those_who_survive (r := Sample.screenInQuiet)
      (q := Sample.screenInQuietQuery) rfl .restricted Sample.screens
  have hplanned : (Sample.screenInQuietQuery.planned Sample.screens.source).outcome.1 =
      .ok (.ok (.joint ⟨[], [[2]]⟩ (.ofList [2]))) := by cbv
  have hfree : (Sample.screenInQuiet.compute .restricted Sample.screens.source).outcome.1.map
      Answer.slots = .ok [⟨⟨1741770000000, 1741791600000⟩, .ofList [2]⟩] := by cbv
  have hsensible : (Sample.screenInQuietQuery.survivors Sample.screens).Sensible := by
    apply Classical.byContradiction
    intro hnot
    obtain ⟨filter, hanswer⟩ := hempty hnot
    rw [hanswer] at hfree
    cases hfree
  have hsame := (hplan hsensible).symm.trans hplanned
  simp only [Except.ok.injEq, Query.planOver, Sample.screenInQuietQuery, Plan.joint.injEq] at hsame
  have hsurvive : ∀ id, id ∈ (IdSet.ofList [2]) ↔ id ∈ Sample.screenInQuietQuery.selection.ids ∧
      Sample.screenInQuietQuery.Survives Sample.screens id := by
    intro id
    rw [← hids, ← hsame.2]
    rfl
  refine ⟨((hsurvive 2).mp (by decide)).2, fun h => ?_, hplanned⟩
  exact absurd ((hsurvive 1).mpr ⟨by decide, h⟩) (by decide)

end FreeTime
