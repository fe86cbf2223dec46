-- The laws of narrowing: a plan is given only the rules, bookings and capacities of the resources
-- that it reads, and only those of the period. It answers as if it had been given all there are.
import FreeTime.Proofs.Explaining
import FreeTime.Proofs.Filtering
import FreeTime.Proofs.Occurrences

namespace FreeTime

/-! ## Plans over lists of rules -/

namespace Plan

variable {policy : Policy} {p : Period} {rules : List Rule} {events : List BusyEvent}
  {capacities : List (Int × Nat)} {plan : Plan}

theorem expanded_ofLists (h : ∀ r ∈ rules, r.Expands p) :
    plan.Expanded ⟨policy, p, .ofLists rules events capacities⟩ :=
  fun _ _ r hr => h r (Inputs.mem_rules_ofLists.mp hr).1

/-- A plan runs over rules that are all accepted and can all be expanded. -/
theorem run_ofLists_ok (hkinds : ∀ r ∈ rules, policy.supports r.kind = true)
    (hexpands : ∀ r ∈ rules, r.Expands p) :
    ∃ slots, plan.run ⟨policy, p, .ofLists rules events capacities⟩ = .ok slots :=
  run_ok (fun _ _ => Setting.accepts_ofLists fun r hr _ => hkinds r hr) (expanded_ofLists hexpands)

end Plan

/-! ## Stores with distinct resources -/

/-- Steps that keep a property keep it along a list. -/
theorem foldl_keeps {α β : Type} {step : β → α → β} {P : β → Prop}
    (h : ∀ s x, P s → P (step s x)) (xs : List α) {s : β} (hs : P s) : P (xs.foldl step s) := by
  induction xs generalizing s with
  | nil => exact hs
  | cons x xs ih => exact ih (h s x hs)

theorem nodup_replaceById {α : Type} {id : α → Int} {entries : List α}
    (h : (entries.map id).Nodup) (entry : α) : ((replaceById id entry entries).map id).Nodup := by
  rw [replaceById, List.map_append, List.nodup_append]
  refine ⟨h.sublist ((List.filter_sublist).map id), by simp, ?_⟩
  intro a ha b hb
  obtain ⟨e, he, rfl⟩ := List.mem_map.mp ha
  simp only [List.map_cons, List.map_nil, List.mem_singleton] at hb
  rw [hb]
  simpa using (List.mem_filter.mp he).2

namespace Store

/-- No two resources of a store have one id. -/
def Distinct (s : Store) : Prop := (s.resources.map Resource.id).Nodup

theorem distinct_ofFixture (f : Fixture) : (ofFixture f).Distinct := by
  have hresources : (f.resources.foldl (fun s r => s.insertResource r) empty).Distinct := by
    refine foldl_keeps ?_ f.resources List.nodup_nil
    exact fun s r hs => nodup_replaceById hs r
  refine foldl_keeps ?_ f.tags (foldl_keeps ?_ f.properties (foldl_keeps ?_ f.relations
    (foldl_keeps ?_ f.busyEvents (foldl_keeps ?_ f.rules hresources))))
  all_goals exact fun s x hs => hs

theorem resource?_of_mem {s : Store} (h : s.Distinct) {r : Resource} (hr : r ∈ s.resources) :
    s.resource? r.id = some r := by
  unfold Distinct at h
  unfold resource?
  generalize s.resources = resources at h hr
  induction resources with
  | nil => cases hr
  | cons x resources ih =>
    rw [List.map_cons, List.nodup_cons] at h
    rcases List.mem_cons.mp hr with rfl | hr
    · simp
    · have hne : x.id ≠ r.id := fun heq => h.1 (heq ▸ List.mem_map_of_mem hr)
      rw [List.find?_cons_of_neg (by simpa using hne)]
      exact ih h.2 hr

/-! ## What is asked for -/

/-- What a store answers when it is asked about some resources in a period. -/
def inputsFor (s : Store) (ids : List Int) (p : Period) : Inputs :=
  .ofLists (s.rulesFor ids p) (s.busyEventsFor ids p.window) (s.capacitiesOf ids)

variable {s : Store} {ids : List Int} {p : Period} {id : Int}

theorem mem_rulesFor {r : Rule} : r ∈ s.rulesFor ids p ↔
    r ∈ s.rules ∧ (∃ id ∈ r.resources, id ∈ ids) ∧ mayOccur r p = true := by
  simp [rulesFor]

/-- The rules that are left out cover nothing in the period. -/
theorem exists_coversIn_rulesFor (hid : id ∈ ids) (excludes : Bool) (t : Int) :
    (∃ r ∈ (s.inputsFor ids p).rules id, r.excludes = excludes ∧ r.CoversIn p t) ↔
      ∃ r ∈ s.inputs.rules id, r.excludes = excludes ∧ r.CoversIn p t := by
  simp only [inputsFor, inputs, Inputs.mem_rules_ofLists, mem_rulesFor]
  constructor
  · rintro ⟨r, ⟨⟨hr, _, _⟩, hbound⟩, h⟩
    exact ⟨r, ⟨hr, hbound⟩, h⟩
  · rintro ⟨r, ⟨hr, hbound⟩, he, hc⟩
    refine ⟨r, ⟨⟨hr, ⟨id, hbound, hid⟩, ?_⟩, hbound⟩, he, hc⟩
    apply Decidable.byContradiction
    intro hnot
    exact Rule.not_coversIn_of_not_mayOccur (Bool.not_eq_true _ ▸ hnot) t hc

/-- The bookings that are left out cover no instant of the window. -/
theorem occupancyAt_inputsFor (hid : id ∈ ids) {t : Int} (ht : p.window.Covers t) :
    occupancyAt ((s.inputsFor ids p).busy id) t = occupancyAt (s.inputs.busy id) t := by
  rw [inputsFor, inputs, Inputs.occupancyAt_ofLists, Inputs.occupancyAt_ofLists, busyEventsFor,
    (Inputs.boundTo_perm (List.mergeSort_perm _ _)).countP_eq, Inputs.boundTo_filter,
    List.countP_filter]
  apply List.countP_congr
  intro e he
  obtain ⟨_, hbound⟩ := Inputs.mem_boundTo.mp he
  simp only [Bool.and_eq_true, decide_eq_true_eq, and_iff_left_iff_imp, List.any_eq_true]
  intro hcovers
  refine ⟨⟨id, hbound, by simpa using hid⟩, ?_⟩
  simp only [Span.overlaps, Span.Covers, Bool.and_eq_true, decide_eq_true_eq] at *
  omega

theorem capacity_inputsFor (h : s.Distinct) (hid : id ∈ ids) :
    (s.inputsFor ids p).capacity id = s.inputs.capacity id := by
  have hasked : (s.capacitiesOf ids).reverse.lookup id = (s.resource? id).map Resource.capacity :=
    s.lookup_asked Resource.capacity hid
  have hall : (s.resources.map fun r => (r.id, r.capacity)).reverse.lookup id =
      (s.resource? id).map Resource.capacity := by
    refine lookup_eq (f := fun id => (s.resource? id).map Resource.capacity) ?_ ?_
    · intro e he
      obtain ⟨r, hr, rfl⟩ := List.mem_map.mp (List.mem_reverse.mp he)
      simp [resource?_of_mem h hr]
    · intro capacity hcapacity
      obtain ⟨r, hr, rfl⟩ := Option.map_eq_some_iff.mp hcapacity
      have hfound : r.id = id := by simpa using List.find?_some hr
      rw [List.mem_reverse, List.mem_map]
      exact ⟨r, List.mem_of_find?_eq_some hr, by rw [hfound]⟩
  simp only [inputsFor, inputs, Inputs.ofLists, hasked, hall]

/-- Of a resource that was asked about, the narrowed inputs say when it is free as all inputs do:
the rules open nothing outside the window, so the bookings there do not matter. -/
theorem freeAt_inputsFor (h : s.Distinct) (hhours : ∀ r ∈ s.rules, r.hours.InDay) (policy : Policy)
    (hid : id ∈ ids) (t : Int) :
    Setting.FreeAt ⟨policy, p, s.inputsFor ids p⟩ id t ↔
      Setting.FreeAt ⟨policy, p, s.inputs⟩ id t := by
  have hlimit : Setting.limit ⟨policy, p, s.inputsFor ids p⟩ id =
      Setting.limit ⟨policy, p, s.inputs⟩ id := by
    simp only [Setting.limit, capacity_inputsFor h hid]
  simp only [Setting.FreeAt, Setting.OpenAt, Setting.ClosedAt, exists_coversIn_rulesFor hid, hlimit]
  apply and_congr_right
  intro hopen
  -- Only an instant that a rule opens matters, and it lies in the window.
  obtain ⟨r, hr, _, hcovers⟩ := hopen
  have ht := Rule.window_covers_of_coversIn (hhours r (Inputs.mem_rules_ofLists.mp hr).1) hcovers
  rw [occupancyAt_inputsFor hid ht]

/-! ## What is answered -/

theorem gives_askInputs (q : Query) (s : Store) (plan : Plan) :
    Gives (q.askInputs s.source plan) (s.inputsFor plan.involved.toList q.period) :=
  gives_bind (gives_ask rfl) (gives_bind (gives_ask rfl) (gives_bind (gives_ask rfl)
    (gives_pure _)))

/-- What holds of all rules holds of those that are given. -/
theorem forall_rulesFor {P : Rule → Prop} (h : ∀ r ∈ s.rules, P r) : ∀ r ∈ s.rulesFor ids p, P r :=
  fun r hr => h r (mem_rulesFor.mp hr).1

/-- A plan runs on the narrowed inputs as on all inputs. -/
theorem run_inputsFor (h : s.Distinct) (hp : p.last.day < lastDay)
    (hhours : ∀ r ∈ s.rules, r.hours.InDay) {policy : Policy}
    (hkinds : ∀ r ∈ s.rules, policy.supports r.kind) {plan : Plan} (hg : plan.Grounded) :
    ∃ slots, plan.run ⟨policy, p, s.inputsFor plan.involved.toList p⟩ = .ok slots ∧
      plan.run ⟨policy, p, s.inputs⟩ = .ok slots := by
  have hexpands := fun r hr => Rule.expands_of_lt hp (hhours r hr).2.1
  obtain ⟨slots, hrun⟩ : ∃ slots, plan.run ⟨policy, p, s.inputsFor plan.involved.toList p⟩ =
      .ok slots := Plan.run_ofLists_ok (forall_rulesFor hkinds) (forall_rulesFor hexpands)
  obtain ⟨slots', hrun'⟩ : ∃ slots, plan.run ⟨policy, p, s.inputs⟩ = .ok slots :=
    Plan.run_ofLists_ok hkinds hexpands
  -- Both runs list the same instants canonically, though their lists on the way differ.
  have hcanonical := Plan.canonical_of_run (booksProperly_ofLists _ _ _ _ _) hg hrun
  have hcanonical' := canonical_congr
    (Plan.canonical_of_run (booksProperly_ofLists _ _ _ _ _) hg hrun') fun t =>
      (Plan.possibleAt_congr fun id hid => freeAt_inputsFor h hhours policy hid t).symm
  rw [canonical_unique hcanonical' hcanonical] at hrun'
  exact ⟨slots, hrun, hrun'⟩

end Store

namespace Query

theorem grounded_planOver (q : Query) (g : Ancestry) (selection : Selection) :
    (q.planOver g selection).Grounded := by
  unfold planOver
  cases q.ancestors with
  | none =>
    intro group hgroup needs hneeds
    obtain ⟨members, _, rfl⟩ := List.mem_map.mp hgroup
    obtain ⟨id, _, rfl⟩ := List.mem_map.mp hneeds
    simp
  | some expansion => exact g.grounded_planOf selection expansion.mode

/-! ## What is computed -/

theorem outcome_of_ends {α : Type} {m : Asking α} {r : Except NoAnswer α} (h : Ends m r) :
    m.outcome.1 = r := h []

variable {q : Query} {s : Store}

/-- The plan for the survivors of a query. -/
noncomputable def survivingPlan (q : Query) (s : Store) : Plan :=
  q.planOver (s.hierarchy q.relationTypes) (q.survivors s)

/-- Where the survivors can be planned with, computing comes to the answer of their plan. -/
theorem compute_of_sensible (hq : q.Checked) (policy : Policy) (h : (q.survivors s).Sensible) :
    Ends (q.compute policy s.source) (q.answer
      ⟨policy, q.period, s.inputsFor (q.survivingPlan s).involved.toList q.period⟩
      (q.survivingPlan s)) :=
  ends_bind (gives_planned_of_sensible hq h) (ends_bind (Store.gives_askInputs q s _) (ends_mk _))

theorem compute_of_not_sensible (hq : q.Checked) (policy : Policy)
    (h : ¬ (q.survivors s).Sensible) :
    Ends (q.compute policy s.source) (.ok (q.emptied (q.emptiedBy s))) :=
  ends_bind (gives_planned_of_not_sensible hq h) (gives_pure _)

end Query

/-! ## The laws -/

namespace Request

/-- Over a store whose rules are all accepted and name hours of one day, a request for a period before
the last date of the calendar is answered. Its slots are those of its plan, had the plan been given
every rule, every booking and every capacity of the store; where the filters leave no plan, there are
none. -/
theorem narrowing_loses_nothing {f : Fixture} {policy : Policy} {r : Request} {q : Query}
    (h : r.validate = .ok q) (hunsliced : r.slotMinutes = none)
    (hkinds : ∀ rule ∈ (Store.ofFixture f).rules, policy.supports rule.kind)
    (hhours : ∀ rule ∈ (Store.ofFixture f).rules, rule.hours.InDay)
    (hlast : q.period.last.day < lastDay) :
    ∃ answer found, (r.compute policy (Store.ofFixture f).source).outcome.1 = .ok answer ∧
      (q.planned (Store.ofFixture f).source).outcome.1 = .ok found ∧
      (∀ plan, found = .ok plan →
        plan.run ⟨policy, q.period, (Store.ofFixture f).inputs⟩ = .ok answer.slots) ∧
      ∀ filter, found = .error filter → answer.slots = [] := by
  have hq := validate_ok_iff.mp h
  generalize hs : Store.ofFixture f = s at *
  have hdistinct : s.Distinct := hs ▸ Store.distinct_ofFixture f
  rw [compute, h]
  rcases Query.gives_planned hq.checked s with ⟨_, hplanned⟩ | ⟨_, filter, hplanned⟩
  · have hg := q.grounded_planOver (s.hierarchy q.relationTypes) (q.survivors s)
    generalize q.planOver (s.hierarchy q.relationTypes) (q.survivors s) = plan at hplanned hg
    obtain ⟨slots, hrun, hrun'⟩ :=
      Store.run_inputsFor hdistinct hlast hhours hkinds hg
    have hexpands := fun rule hrule => Rule.expands_of_lt hlast (hhours rule hrule).2.1
    obtain ⟨explanations, hanswer⟩ := Query.answer_of_run (hq.unsliced hunsliced)
      (Plan.expanded_ofLists (Store.forall_rulesFor hexpands)) hrun
    have hcompute : Gives (q.compute policy s.source) ⟨slots, explanations⟩ :=
      gives_bind hplanned (gives_bind (Store.gives_askInputs q s plan) (gives_mk hanswer))
    refine ⟨_, _, hcompute [], hplanned [], ?_, by simp⟩
    rintro _ ⟨⟩
    exact hrun'
  · have hcompute : Gives (q.compute policy s.source) (q.emptied filter) :=
      gives_bind hplanned (gives_pure _)
    exact ⟨_, _, hcompute [], hplanned [], by simp, fun _ _ => rfl⟩

end Request

/-! ## A room with a past -/

namespace Sample

/-- The first room alone, on the one day. -/
def firstRoom : Request where
  first := wednesday
  last := wednesday
  resources := [1]
  groups := []
  propertyFilter := none
  ancestors := none
  ancestorFilters := []
  slotMinutes := none
  keepsTail := false
  explain := false

/-- 2025-03-11. -/
def tuesday : Date := ⟨20158, by decide, by decide⟩

/-- The room was closed until the day before, and booked then. -/
def roomWithPast : Fixture where
  resources := [⟨1, 1, 1⟩]
  rules := [openRule, { openRule with id := 2, excludes := true, last := some tuesday }]
  busyEvents := [booking, ⟨2, ⟨tuesday, noon⟩, ⟨tuesday, three⟩, [1], by decide⟩]
  relations := []
  properties := []
  tags := []

end Sample

/-- What is past is left out, and the room is free in the afternoon with or without it. -/
theorem the_past_does_not_matter :
    let store := Store.ofFixture Sample.roomWithPast
    let afternoon : List Slot := [⟨⟨1741780800000, 1741791600000⟩, .ofList [1]⟩]
    (Sample.firstRoom.compute .restricted store.source).outcome.1.map Answer.slots = .ok afternoon ∧
      Plan.run ⟨.restricted, Sample.day, store.inputs⟩ (.joint ⟨[1], []⟩ (.ofList [1])) =
        .ok afternoon := by
  have hslots : (Sample.firstRoom.compute .restricted
      (Store.ofFixture Sample.roomWithPast).source).outcome.1.map Answer.slots =
        .ok [⟨⟨1741780800000, 1741791600000⟩, .ofList [1]⟩] := by cbv
  have hplanned : (Query.planned ⟨Sample.day, ⟨[1], []⟩, none, none, [], none, false⟩
      (Store.ofFixture Sample.roomWithPast).source).outcome.1 =
        .ok (.ok (.joint ⟨[1], []⟩ (.ofList [1]))) := by cbv
  have hkinds : ∀ rule ∈ (Store.ofFixture Sample.roomWithPast).rules,
      Policy.restricted.supports rule.kind := by decide +kernel
  obtain ⟨answer, found, hanswer, hfound, hall, _⟩ := Request.narrowing_loses_nothing
    (r := Sample.firstRoom) (q := ⟨Sample.day, ⟨[1], []⟩, none, none, [], none, false⟩)
    rfl rfl hkinds (by decide +kernel) (by decide)
  rw [hanswer] at hslots
  have hsame := Except.ok.inj (hfound.symm.trans hplanned)
  exact ⟨by rw [hanswer]; exact hslots, (hall _ hsame).trans hslots⟩

end FreeTime
