-- The laws of the two modes. Ancestors join with the member of a group that they stand above, or
-- all of them join the required resources. Both modes ask the same questions and are refused alike,
-- and the second one never finds time that the first one does not.
import FreeTime.Proofs.Expansion
import FreeTime.Proofs.Explaining
import FreeTime.Proofs.Refusing
import FreeTime.Proofs.Validation
import FreeTime.Store

namespace FreeTime

/-! ## The two computations -/

namespace Query

/-- The query with its ancestors joining in the given mode. -/
def inMode (q : Query) (mode : AncestorMode) : Query :=
  { q with ancestors := q.ancestors.map fun a => { a with mode } }

/-- What is known of a selection that its filters left, with its hierarchy: where ancestors join
the hierarchy is loaded, what was kept of it is exact, and no group appears. -/
structure Surviving (q : Query) (selection : Selection) (ancestry : Option Ancestry)
    (known : Closures) : Prop where
  loaded : q.ancestors.isSome → ancestry.isSome
  exact : ∀ g ∈ ancestry, g.Exact known
  groups : q.selection.groups = [] → selection.groups = []

theorem ensures_filterByProperty (q : Query) (s : Source) :
    Ensures (q.filterByProperty s) fun found =>
      ∀ selection ∈ found, q.selection.groups = [] → selection.groups = [] := by
  unfold filterByProperty
  cases q.propertyFilter with
  | none =>
    refine ensures_pure ?_
    rintro _ ⟨⟩ h
    exact h
  | some filter =>
    refine ensures_bind (ensures_true _) fun carriers _ => ensures_pure ?_
    intro selection hselection h
    obtain ⟨rfl, _⟩ := Selection.retain_eq_some.mp hselection
    simp [Selection.kept, h]

theorem ensures_loadAncestry (q : Query) (s : Source) (selection : Selection) :
    Ensures (q.loadAncestry s selection) fun ancestry =>
      q.ancestors.isSome → ancestry.isSome := by
  unfold loadAncestry
  split
  · exact ensures_bind (ensures_true _) fun g _ => ensures_pure fun _ => rfl
  · rename_i hneeds
    refine ensures_pure fun h => absurd ?_ hneeds
    simp [needsAncestry, h]

theorem ensures_filterByAncestors (q : Query) (s : Source) (ancestry : Option Ancestry)
    (selection : Selection) :
    Ensures (q.filterByAncestors s ancestry selection) fun found =>
      (∀ left ∈ found.1, selection.groups = [] → left.groups = []) ∧
        ∀ g ∈ ancestry, g.Exact found.2 := by
  unfold filterByAncestors
  cases ancestry with
  | none =>
    refine ensures_pure ⟨?_, by simp⟩
    rintro _ ⟨⟩ h
    exact h
  | some g =>
    simp only
    split
    · refine ensures_pure ⟨?_, fun g _ => g.exact_nil⟩
      rintro _ ⟨⟩ h
      exact h
    · refine ensures_bind (ensures_true _) fun filters _ => ensures_pure ⟨?_, ?_⟩
      · intro left hleft h
        obtain ⟨rfl, _⟩ := Selection.retain_eq_some.mp hleft
        simp [Selection.kept, h]
      · rintro _ ⟨⟩
        exact (g.settled_retainPassing filters selection.ids.toList [] g.exact_nil).2

theorem ensures_survive (q : Query) (s : Source) :
    Ensures (q.survive s) fun found =>
      ∀ x, found = .ok x → q.Surviving x.1 x.2.1 x.2.2 := by
  unfold survive
  refine ensures_bind (q.ensures_filterByProperty s) fun found hfound => ?_
  cases found with
  | none => exact ensures_pure fun x hx => by cases hx
  | some selection =>
    simp only
    refine ensures_bind (q.ensures_loadAncestry s selection) fun ancestry hloaded => ?_
    refine ensures_bind (q.ensures_filterByAncestors s ancestry selection) fun left hleft => ?_
    obtain ⟨_ | left, known⟩ := left
    · exact ensures_pure fun x hx => by cases hx
    · refine ensures_pure ?_
      rintro _ ⟨⟩
      exact ⟨hloaded, hleft.2, fun h => hleft.1 left rfl (hfound selection rfl h)⟩

/-- One mode plans looser than the other one, and without groups both plans run alike. -/
def PlansLooser (q : Query) (strict loose : Plan) : Prop :=
  loose.Loosens strict ∧ (q.selection.groups = [] → ∀ s, loose.run s = strict.run s)

theorem plansLooser_plan {q : Query} (hset : q.ancestors.isSome) {selection : Selection}
    {ancestry : Option Ancestry} {known : Closures} (h : q.Surviving selection ancestry known) :
    q.PlansLooser ((q.inMode .global).plan ancestry known selection)
      ((q.inMode .perGroup).plan ancestry known selection) := by
  obtain ⟨g, rfl⟩ := Option.isSome_iff_exists.mp (h.loaded hset)
  obtain ⟨expansion, hexpansion⟩ := Option.isSome_iff_exists.mp hset
  have hknown := h.exact g rfl
  have hmode : ∀ mode, (q.inMode mode).ancestors = some { expansion with mode } :=
    fun mode => by simp [inMode, hexpansion]
  rw [plan_eq (hmode .global) hknown, plan_eq (hmode .perGroup) hknown]
  exact ⟨Ancestry.loosens_perGroupPlanOf,
    fun hnone s => Ancestry.run_perGroupPlanOf (h.groups hnone) s⟩

/-- Filtering does not look at the mode. -/
theorem survive_inMode (q : Query) (mode : AncestorMode) (s : Source) :
    (q.inMode mode).survive s = q.survive s := by
  obtain ⟨period, selection, propertyFilter, _ | ancestors, filters, slicing, explain⟩ := q <;> rfl

theorem goAlike_planned {q : Query} (hset : q.ancestors.isSome) (s : Source) :
    GoAlike (Alike (Alike q.PlansLooser)) ((q.inMode .global).planned s)
      ((q.inMode .perGroup).planned s) := by
  unfold planned
  rw [survive_inMode, survive_inMode]
  refine goAlike_bind (goAlike_self (q.ensures_survive s)) .error ?_
  rintro found _ ⟨rfl, hfound⟩
  refine goAlike_mk (.ok ?_)
  rcases found with filter | ⟨selection, ancestry, known⟩
  · exact .error filter
  · exact .ok (plansLooser_plan hset (hfound _ rfl))

/-! ## Answers -/

/-- Answers are looser when they cover more, and are the same without groups. -/
def AnswersLooser (q : Query) (strict loose : Answer) : Prop :=
  (∀ t, CoveredBySlots strict.slots t → CoveredBySlots loose.slots t) ∧
    (q.selection.groups = [] → loose.slots = strict.slots)

/-- What the two modes come to: both are refused with the same error, and where both answer one
answer is looser. As long as rules can be expanded there is no other way to fail. -/
structure ComesLooser (q : Query) (expands : Prop) (strict loose : Except NoAnswer Answer) : Prop where
  refused : ∀ cause, strict = .error (.refused cause) ↔ loose = .error (.refused cause)
  answered : ∀ a b, strict = .ok a → loose = .ok b → q.AnswersLooser a b
  failed : expands → ∀ e, strict = .error e ↔ loose = .error e

theorem comesLooser_error (q : Query) (expands : Prop) (e : NoAnswer) :
    q.ComesLooser expands (.error e) (.error e) :=
  ⟨fun _ => Iff.rfl, nofun, fun _ _ => Iff.rfl⟩

theorem comesLooser_emptied (q : Query) (expands : Prop) (a : Answer) :
    q.ComesLooser expands (.ok a) (.ok a) where
  refused _ := by simp
  answered := by
    rintro _ _ ⟨⟩ ⟨⟩
    exact ⟨fun _ h => h, fun _ => rfl⟩
  failed _ _ := by simp

theorem comesLooser_answer {q strictly loosely : Query} {s : Setting} {strict loose : Plan}
    (hstrictly : strictly.slicing = none) (hloosely : loosely.slicing = none)
    (hb : s.BooksProperly) (h : q.PlansLooser strict loose) :
    q.ComesLooser (∀ id, s.Expands id) (strictly.answer s strict) (loosely.answer s loose) := by
  obtain ⟨hlooser, hsame⟩ := h
  -- Both plans read the same resources, so a rule that is not accepted stops both.
  rcases hcheck : s.checkKinds strict.involved.toList with e | ⟨⟩
  · have hstrict : strict.run s = .error e := by
      rw [Plan.run_eq, hcheck]
      rfl
    have hloose : loose.run s = .error e := by
      rw [Plan.run_eq, hlooser.involved, hcheck]
      rfl
    unfold answer
    rw [hstrict, hloose]
    exact q.comesLooser_error _ e
  · have hacc : strict.Accepted s := (s.checkKinds_ok_iff _).mp hcheck
    have hacc' : loose.Accepted s := fun id hid => hacc id (hlooser.involved ▸ hid)
    refine ⟨fun cause => ?_, fun a b ha hb' => ?_, fun hexpands e => ?_⟩
    · rw [answer_refused_iff, answer_refused_iff, Plan.run_eq_refused_iff, Plan.run_eq_refused_iff,
        hlooser.involved]
    · have hrun := run_of_answer hstrictly ha
      have hrun' := run_of_answer hloosely hb'
      refine ⟨fun t ht => ?_, fun hnone => ?_⟩
      · rw [(Plan.canonical_of_run hb hlooser.strictGrounded hrun).covers] at ht
        rw [(Plan.canonical_of_run hb hlooser.looseGrounded hrun').covers]
        exact hlooser.possible s t ht
      · exact Except.ok.inj ((hrun'.symm.trans (hsame hnone s)).trans hrun)
    · obtain ⟨slots, hrun⟩ := Plan.run_ok hacc fun id _ => hexpands id
      obtain ⟨slots', hrun'⟩ := Plan.run_ok hacc' fun id _ => hexpands id
      obtain ⟨_, hanswer⟩ := answer_of_run hstrictly (fun id _ => hexpands id) hrun
      obtain ⟨_, hanswer'⟩ := answer_of_run hloosely (fun id _ => hexpands id) hrun'
      simp [hanswer, hanswer']

/-- The source gives no rule that cannot be expanded. -/
def GetsExpanding (q : Query) (s : Source) : Prop :=
  ∀ rule, s.MayGive q.period rule → rule.Expands q.period

theorem goAlike_compute {q : Query} (hset : q.ancestors.isSome) (hunsliced : q.slicing = none)
    (policy : Policy) (s : Source) :
    GoAlike (q.ComesLooser (q.GetsExpanding s)) ((q.inMode .global).compute policy s)
      ((q.inMode .perGroup).compute policy s) := by
  unfold compute
  refine goAlike_bind (goAlike_planned hset s) (q.comesLooser_error _) ?_
  rintro _ _ (filter | ⟨hplans⟩)
  · exact goAlike_mk (q.comesLooser_emptied _ (q.emptied filter))
  · rename_i strict loose
    have hask : (q.inMode .global).askInputs s strict = q.askInputs s strict := rfl
    have hask' : (q.inMode .perGroup).askInputs s loose = q.askInputs s strict := by
      unfold askInputs
      rw [hplans.1.involved]
      rfl
    simp only
    rw [hask, hask']
    refine goAlike_bind (goAlike_self (q.ensures_askInputs s strict)) (q.comesLooser_error _) ?_
    rintro inputs _ ⟨rfl, hb, hrules⟩
    have hanswer := @comesLooser_answer q (q.inMode .global) (q.inMode .perGroup) _ _ _ hunsliced
      hunsliced (hb policy) hplans
    refine goAlike_mk ⟨hanswer.refused, hanswer.answered, fun hgets => hanswer.failed fun id => ?_⟩
    exact fun rule hrule => hgets rule (hrules id rule hrule)

end Query

/-! ## The laws -/

namespace Request

/-- The request with its ancestors joining in the mode of the given name. -/
def inMode (r : Request) (name : String) : Request :=
  { r with ancestors := r.ancestors.map fun a => { a with mode := name } }

theorem becomes_inMode {r : Request} {q : Query} (h : r.Becomes q) {name : String}
    {mode : AncestorMode} (hname : AncestorMode.ofName name = .ok mode) :
    (r.inMode name).Becomes (q.inMode mode) where
  period := h.period
  selection := h.selection
  properties := h.properties
  propertyFilter := h.propertyFilter
  ancestors := by
    have hancestors := h.ancestors
    unfold checkAncestors at hancestors ⊢
    cases hoptions : r.ancestors with
    | none =>
      rw [hoptions] at hancestors
      simp [inMode, Query.inMode, hoptions, ← Except.ok.inj hancestors]
    | some options =>
      rw [hoptions] at hancestors
      simp only [bind_eq_ok] at hancestors
      obtain ⟨_, _, hset⟩ := hancestors
      simp only [inMode, Query.inMode, hoptions, Option.map_some, hname,
        ← Except.ok.inj hset]
      rfl
  filterCount := h.filterCount
  ancestorFilters := h.ancestorFilters
  slicing := h.slicing
  explain := h.explain

theorem Becomes.ancestors_set {r : Request} {q : Query} (h : r.Becomes q)
    (hset : r.ancestors.isSome) : q.ancestors.isSome := by
  have hancestors := h.ancestors
  obtain ⟨options, hoptions⟩ := Option.isSome_iff_exists.mp hset
  unfold checkAncestors at hancestors
  rw [hoptions] at hancestors
  simp only [bind_eq_ok] at hancestors
  obtain ⟨_, _, hq⟩ := hancestors
  rw [← Except.ok.inj hq]
  rfl

theorem compute_of_becomes {r : Request} {q : Query} (h : r.Becomes q) (policy : Policy)
    (s : Source) : r.compute policy s = q.compute policy s := by
  unfold compute
  rw [validate_ok_iff.mpr h]

/-- A request whose ancestors join asks its source the same questions in both modes, and is refused
in one mode as it is refused in the other one; as long as the source gives rules that can be expanded,
it fails in no other way. Where both modes answer, all the time that is found with every ancestor
required is found with each member bringing its own, and without groups the slots are the same. -/
theorem the_global_mode_finds_no_more_time {r : Request} {q : Query} (h : r.validate = .ok q)
    (hset : r.ancestors.isSome) (hunsliced : r.slotMinutes = none) (policy : Policy) (s : Source) :
    let global := ((r.inMode "global").compute policy s).outcome
    let perGroup := ((r.inMode "per_group").compute policy s).outcome
    global.2 = perGroup.2 ∧
      (∀ cause, global.1 = .error (.refused cause) ↔ perGroup.1 = .error (.refused cause)) ∧
      (q.GetsExpanding s → ∀ e, global.1 = .error e ↔ perGroup.1 = .error e) ∧
      ∀ strict loose, global.1 = .ok strict → perGroup.1 = .ok loose →
        (∀ t, CoveredBySlots strict.slots t → CoveredBySlots loose.slots t) ∧
          (r.groups = [] → loose.slots = strict.slots) := by
  have hq := validate_ok_iff.mp h
  rw [compute_of_becomes (becomes_inMode hq rfl),
    compute_of_becomes (becomes_inMode hq rfl)]
  obtain ⟨hcalls, hresults⟩ :=
    Query.goAlike_compute (hq.ancestors_set hset) (hq.unsliced hunsliced) policy s []
  refine ⟨hcalls, hresults.refused, hresults.failed, fun strict loose hstrict hloose => ?_⟩
  obtain ⟨hcovers, hsame⟩ := hresults.answered strict loose hstrict hloose
  refine ⟨hcovers, fun hnone => hsame ?_⟩
  rw [(checkSelection_eq_ok hq.selection).1, hnone]
  rfl

end Request

/-! ## A room in a building -/

namespace Sample

/-- Either room is asked for, together with all that stands above it. -/
def eitherRoom : Request where
  first := wednesday
  last := wednesday
  resources := []
  groups := [[1, 2]]
  propertyFilter := none
  ancestors := some ⟨"per_group", none⟩
  ancestorFilters := []
  slotMinutes := none
  keepsTail := false
  explain := true

/-- The second room stands in a building, which no rule opens. -/
def rooms : Store where
  resources := [⟨1, 1, 1⟩, ⟨2, 1, 1⟩, ⟨3, 2, 1⟩]
  rules := [openRule]
  busyEvents := [booking]
  relations := [⟨3, 2, 1⟩]
  properties := []
  tags := []

end Sample

/-- Only the room in the building waits for it, unless the building joins the required resources;
the questions are the same. -/
theorem the_room_outside_is_free_in_one_mode :
    let global := ((Sample.eitherRoom.inMode "global").compute .restricted
      Sample.rooms.source).outcome
    let perGroup := ((Sample.eitherRoom.inMode "per_group").compute .restricted
      Sample.rooms.source).outcome
    global.1.map Answer.slots = .ok [] ∧
      perGroup.1.map Answer.slots =
        .ok [⟨⟨1741780800000, 1741791600000⟩, .ofList [1, 2]⟩] ∧
      global.2 = perGroup.2 := by
  refine ⟨by cbv, by cbv, ?_⟩
  exact (Request.the_global_mode_finds_no_more_time (r := Sample.eitherRoom)
    (q := ⟨Sample.day, ⟨[], [[1, 2]]⟩, none, some ⟨.perGroup, none⟩, [], none, true⟩)
    rfl rfl rfl .restricted Sample.rooms.source).1

end FreeTime
