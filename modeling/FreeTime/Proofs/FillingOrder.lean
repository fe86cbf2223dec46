-- The laws of filling a store. The order in which things were entered shows in the lists of a store,
-- and so in the questions that are put to it; it does not show in what is computed, where every
-- list has become a set or has been sorted.
import FreeTime.Proofs.Narrowing

namespace FreeTime

/-- Graphs with the same neighbours have the same paths. -/
theorem Reach.path_congr {next other : Int → List Int} (h : ∀ a b, b ∈ next a ↔ b ∈ other a)
    {a b : Int} : Path next a b ↔ Path other a b := by
  rw [path_iff_steps, path_iff_steps]
  exact exists_congr fun n => (steps_congr fun _ b _ => h b).symm

/-! ## Stores with the same facts -/

namespace Store

/-- Two stores know the same resources, list the same rules and bookings when they are asked, and
hold the same relations, properties and tags, in whatever order. -/
structure SameFacts (s s' : Store) : Prop where
  resource : ∀ id, s.resource? id = s'.resource? id
  rules : ∀ ids p, s.rulesFor ids p = s'.rulesFor ids p
  busyEvents : ∀ ids window, s.busyEventsFor ids window = s'.busyEventsFor ids window
  relations : ∀ r, r ∈ s.relations ↔ r ∈ s'.relations
  properties : ∀ n, n ∈ s.properties ↔ n ∈ s'.properties
  tags : ∀ t, t ∈ s.tags ↔ t ∈ s'.tags

variable {s s' : Store}

theorem carries_of_sameFacts (h : s.SameFacts s') {descendants : Bool} {property id : Int} :
    s.Carries descendants property id ↔ s'.Carries descendants property id := by
  have hchildren : ∀ a b, b ∈ s.childrenOf a ↔ b ∈ s'.childrenOf a := by
    intro a b
    simp only [childrenOf, List.mem_map, List.mem_filter, h.properties]
  have hproperties : ∀ q, q ∈ s.propertiesOf id ↔ q ∈ s'.propertiesOf id := by
    intro q
    simp only [mem_propertiesOf, h.tags]
  unfold Carries
  simp only [hproperties, Reach.path_congr hchildren]

theorem matches_of_sameFacts (h : s.SameFacts s') {f : AncestorFilter} {id : Int} :
    s.Matches f id ↔ s'.Matches f id := by
  unfold Matches
  cases f.mode <;> simp only [carries_of_sameFacts h]

/-- The hierarchies of such stores mirror each other. -/
theorem mirrors_of_sameFacts (h : s.SameFacts s') (types : Option (List Int)) (seeds : List Int) :
    (s.hierarchy types).Mirrors (s'.hierarchy types) seeds where
  parents x _ p := by
    simp only [Ancestry.mem_parentsOf, hierarchy, allowed, List.mem_filter, h.relations]
  types x _ := by rw [typeOf_hierarchy, typeOf_hierarchy, h.resource]

theorem passes_of_sameFacts (h : s.SameFacts s') {types : Option (List Int)} {f : AncestorFilter}
    {id : Int} : s.Passes types f id ↔ s'.Passes types f id := by
  have heligible : ∀ x, (s.hierarchy types).Eligible f id x ↔
      (s'.hierarchy types).Eligible f id x := fun x =>
    Ancestry.eligible_of_mirrors (mirrors_of_sameFacts h types [id]) (by simp) f
  unfold Passes
  simp only [heligible, matches_of_sameFacts h]

theorem inputsFor_of_sameFacts (h : s.SameFacts s') (ids : List Int) (p : Period) :
    s.inputsFor ids p = s'.inputsFor ids p := by
  unfold inputsFor capacitiesOf
  simp only [h.resource, h.rules, h.busyEvents]

end Store

namespace Query

variable {q : Query} {s s' : Store}

theorem carriesAsked_of_sameFacts (h : s.SameFacts s') {id : Int} :
    q.CarriesAsked s id ↔ q.CarriesAsked s' id := by
  unfold CarriesAsked
  simp only [Store.carries_of_sameFacts h]

theorem survives_of_sameFacts (h : s.SameFacts s') {id : Int} :
    q.Survives s id ↔ q.Survives s' id := by
  unfold Survives
  simp only [carriesAsked_of_sameFacts h, Store.passes_of_sameFacts h]

open Classical in
theorem survivors_of_sameFacts (h : s.SameFacts s') : q.survivors s = q.survivors s' :=
  Selection.kept_congr fun _ _ => decide_eq_decide.mpr (survives_of_sameFacts h)

open Classical in
theorem emptiedBy_of_sameFacts (h : s.SameFacts s') : q.emptiedBy s = q.emptiedBy s' :=
  emptiedBy_eq fun _ => decide_eq_true_iff.trans (carriesAsked_of_sameFacts h).symm

theorem survivingPlan_of_sameFacts (h : s.SameFacts s') :
    q.survivingPlan s = q.survivingPlan s' := by
  unfold survivingPlan planOver
  rw [survivors_of_sameFacts h]
  cases q.ancestors with
  | none => rfl
  | some expansion =>
    exact planOf_of_mirrors (Store.mirrors_of_sameFacts h _ (q.survivors s').ids.toList)
      (fun _ hid => IdSet.mem_def.mp hid) expansion.mode

/-- Over stores with the same facts a query is computed alike. -/
theorem compute_of_sameFacts (hq : q.Checked) (policy : Policy) (h : s.SameFacts s') :
    (q.compute policy s.source).outcome.1 = (q.compute policy s'.source).outcome.1 := by
  have hsurvivors : q.survivors s = q.survivors s' := survivors_of_sameFacts h
  by_cases hsensible : (q.survivors s).Sensible
  · have hcompute := compute_of_sensible hq policy hsensible
    have hcompute' := compute_of_sensible hq policy (hsurvivors ▸ hsensible)
    rw [← survivingPlan_of_sameFacts h, ← Store.inputsFor_of_sameFacts h] at hcompute'
    rw [outcome_of_ends hcompute, outcome_of_ends hcompute']
  · have hcompute := compute_of_not_sensible hq policy hsensible
    have hcompute' := compute_of_not_sensible hq policy (hsurvivors ▸ hsensible)
    rw [← emptiedBy_of_sameFacts h] at hcompute'
    rw [outcome_of_ends hcompute, outcome_of_ends hcompute']

end Query

/-! ## Sorting -/

/-- Lists with the same entries are sorted alike, where no two entries stand at one place of the
order. -/
theorem mergeSort_eq_of_perm {α : Type} {le : α → α → Bool}
    (htrans : ∀ a b c, le a b = true → le b c = true → le a c = true)
    (htotal : ∀ a b, (le a b || le b a) = true) {xs ys : List α} (h : xs.Perm ys)
    (hanti : ∀ a ∈ xs, ∀ b ∈ xs, le a b = true → le b a = true → a = b) :
    xs.mergeSort le = ys.mergeSort le := by
  have hperm := (List.mergeSort_perm xs le).trans (h.trans (List.mergeSort_perm ys le).symm)
  refine List.Perm.eq_of_pairwise ?_ (List.pairwise_mergeSort htrans htotal xs)
    (List.pairwise_mergeSort htrans htotal ys) hperm
  intro a b ha hb
  exact hanti a (List.mem_mergeSort.mp ha) b (h.mem_iff.mpr (List.mem_mergeSort.mp hb))

namespace BusyEvent

/-- Bookings are sorted by date, time and id, in this order. -/
theorem sortsBefore_iff {a b : BusyEvent} : a.sortsBefore b = true ↔
    a.start.date.day < b.start.date.day ∨ a.start.date.day = b.start.date.day ∧
      (a.start.time.rank < b.start.time.rank ∨
        a.start.time.rank = b.start.time.rank ∧ a.id ≤ b.id) := by
  have hdate : a.start.date = b.start.date ↔ a.start.date.day = b.start.date.day := Date.ext_iff
  have htime : a.start.time = b.start.time ↔ a.start.time.rank = b.start.time.rank :=
    ⟨fun h => h ▸ rfl, TimeOfDay.eq_of_rank_eq⟩
  have hlt : a.start.time < b.start.time ↔ a.start.time.rank < b.start.time.rank := Iff.rfl
  simp only [sortsBefore, Moment.before, Moment.ext_iff, Bool.or_eq_true, Bool.and_eq_true,
    decide_eq_true_eq, hdate, htime, hlt, Date.lt_iff]
  omega

theorem sortsBefore_trans (a b c : BusyEvent) (hab : a.sortsBefore b = true)
    (hbc : b.sortsBefore c = true) : a.sortsBefore c = true := by
  rw [sortsBefore_iff] at *
  omega

theorem sortsBefore_total (a b : BusyEvent) : (a.sortsBefore b || b.sortsBefore a) = true := by
  rw [Bool.or_eq_true, sortsBefore_iff, sortsBefore_iff]
  omega

end BusyEvent

/-! ## Fixtures in another order -/

namespace Fixture

/-- No two resources, no two rules and no two bookings have one id. -/
structure Distinct (f : Fixture) : Prop where
  resources : (f.resources.map Resource.id).Nodup
  rules : (f.rules.map Rule.id).Nodup
  busyEvents : (f.busyEvents.map BusyEvent.id).Nodup

/-- Each list of a fixture is the one of another fixture in another order. -/
structure Reorders (f g : Fixture) : Prop where
  resources : f.resources.Perm g.resources
  rules : f.rules.Perm g.rules
  busyEvents : f.busyEvents.Perm g.busyEvents
  relations : f.relations.Perm g.relations
  properties : f.properties.Perm g.properties
  tags : f.tags.Perm g.tags

theorem Reorders.distinct {f g : Fixture} (h : f.Reorders g) (hf : f.Distinct) : g.Distinct where
  resources := (h.resources.map _).nodup_iff.mp hf.resources
  rules := (h.rules.map _).nodup_iff.mp hf.rules
  busyEvents := (h.busyEvents.map _).nodup_iff.mp hf.busyEvents

end Fixture

/-- Entries with distinct ids all stay, in the order they came. -/
theorem foldl_replaceById {α : Type} {id : α → Int} (entries : List α) {before : List α}
    (h : ((before ++ entries).map id).Nodup) :
    entries.foldl (fun acc e => replaceById id e acc) before = before ++ entries := by
  induction entries generalizing before with
  | nil => simp
  | cons e entries ih =>
    have hfresh : replaceById id e before = before ++ [e] := by
      rw [replaceById, List.filter_eq_self.mpr]
      intro x hx
      rw [List.map_append, List.nodup_append] at h
      simpa using h.2.2 _ (List.mem_map_of_mem hx) (id e) (by simp)
    rw [List.foldl_cons, hfresh, ih (by simpa using h)]
    simp

namespace Store

/-- Entering a list into one field of a store comes to the list that the field ends with. -/
theorem foldl_into {α : Type} (step : Store → α → Store) (put : List α → Store)
    {add : List α → α → List α} (hstep : ∀ acc x, step (put acc) x = put (add acc x))
    {entries : List α} (hadd : entries.foldl add [] = entries) :
    entries.foldl step (put []) = put entries := by
  rw [List.foldl_hom put hstep, hadd]

theorem foldl_append_one {α : Type} (entries : List α) :
    entries.foldl (fun acc e => acc ++ [e]) [] = entries := by
  rw [List.foldl_append_eq_append, List.nil_append, ← List.flatMap_def, List.flatMap_singleton']

/-- A store that is filled with distinct entries holds them as they came. -/
theorem ofFixture_eq {f : Fixture} (h : f.Distinct) :
    ofFixture f = ⟨f.resources, f.rules, f.busyEvents, f.relations, f.properties, f.tags⟩ := by
  have hresources := foldl_into (fun s r => s.insertResource r) (⟨·, [], [], [], [], []⟩)
    (fun _ _ => rfl) (foldl_replaceById f.resources h.resources)
  have hrules := foldl_into (fun s r => s.insertRule r) (⟨f.resources, ·, [], [], [], []⟩)
    (fun _ _ => rfl) (foldl_replaceById f.rules h.rules)
  have hbusyEvents := foldl_into (fun s e => s.insertBusyEvent e)
    (⟨f.resources, f.rules, ·, [], [], []⟩) (fun _ _ => rfl)
    (foldl_replaceById f.busyEvents h.busyEvents)
  have hrelations := foldl_into (fun s r => s.insertRelation r)
    (⟨f.resources, f.rules, f.busyEvents, ·, [], []⟩) (fun _ _ => rfl)
    (foldl_append_one f.relations)
  have hproperties := foldl_into (fun s n => s.insertProperty n)
    (⟨f.resources, f.rules, f.busyEvents, f.relations, ·, []⟩) (fun _ _ => rfl)
    (foldl_append_one f.properties)
  have htags := foldl_into (fun s t => s.tag t)
    (⟨f.resources, f.rules, f.busyEvents, f.relations, f.properties, ·⟩) (fun _ _ => rfl)
    (foldl_append_one f.tags)
  unfold ofFixture empty
  simp only [hresources, hrules, hbusyEvents, hrelations, hproperties, htags]

theorem resource?_eq_some {s : Store} (h : s.Distinct) {id : Int} {r : Resource} :
    s.resource? id = some r ↔ r ∈ s.resources ∧ r.id = id := by
  constructor
  · intro hr
    exact ⟨List.mem_of_find?_eq_some hr, by simpa using List.find?_some hr⟩
  · rintro ⟨hr, rfl⟩
    exact resource?_of_mem h hr

/-- Filled in another order, with distinct entries, a store has the same facts. -/
theorem sameFacts_ofFixture {f g : Fixture} (hf : f.Distinct) (h : f.Reorders g) :
    (ofFixture f).SameFacts (ofFixture g) := by
  have hg := h.distinct hf
  have hdistinct := distinct_ofFixture f
  have hdistinct' := distinct_ofFixture g
  rw [ofFixture_eq hf] at hdistinct ⊢
  rw [ofFixture_eq hg] at hdistinct' ⊢
  refine ⟨fun id => ?_, fun ids p => ?_, fun ids window => ?_, fun _ => h.relations.mem_iff,
    fun _ => h.properties.mem_iff, fun _ => h.tags.mem_iff⟩
  · apply Option.ext
    intro r
    rw [resource?_eq_some hdistinct, resource?_eq_some hdistinct', h.resources.mem_iff]
  · refine mergeSort_eq_of_perm ?_ ?_ (h.rules.filter _) ?_
    · intro a b c hab hbc
      simp only [decide_eq_true_eq] at *
      exact Int.le_trans hab hbc
    · intro a b
      simpa using Int.le_total a.id b.id
    · intro a ha b hb hab hba
      simp only [decide_eq_true_eq] at hab hba
      exact List.inj_on_of_nodup_map hf.rules (List.mem_filter.mp ha).1 (List.mem_filter.mp hb).1
        (Int.le_antisymm hab hba)
  · refine mergeSort_eq_of_perm BusyEvent.sortsBefore_trans BusyEvent.sortsBefore_total
      (h.busyEvents.filter _) ?_
    intro a ha b hb hab hba
    rw [BusyEvent.sortsBefore_iff] at hab hba
    exact List.inj_on_of_nodup_map hf.busyEvents (List.mem_filter.mp ha).1
      (List.mem_filter.mp hb).1 (by omega)

end Store

/-! ## The laws -/

namespace Request

/-- From two stores that were filled with the same entries, each id once among the resources, the
rules and the bookings, but in different orders, a request is answered alike: with the same error, or
with the same slots and the same explanations. -/
theorem the_order_of_filling_does_not_show {f g : Fixture} (hf : f.Distinct) (h : f.Reorders g)
    (policy : Policy) (r : Request) :
    (r.compute policy (Store.ofFixture f).source).outcome.1 =
      (r.compute policy (Store.ofFixture g).source).outcome.1 := by
  unfold compute
  cases hvalid : r.validate with
  | error cause => rfl
  | ok q =>
    exact Query.compute_of_sameFacts (validate_ok_iff.mp hvalid).checked policy
      (Store.sameFacts_ofFixture hf h)

end Request

/-! ## Rooms entered backwards -/

namespace Sample

/-- The two rooms with their screens, and a booking of each. -/
def bookedScreens : Fixture where
  resources := screens.resources
  rules := [openRule, { openRule with id := 2, excludes := true, last := some tuesday }]
  busyEvents := [booking, ⟨2, ⟨wednesday, noon⟩, ⟨wednesday, three⟩, [2], by decide⟩]
  relations := ⟨3, 1, 1⟩ :: screens.relations
  properties := screens.properties
  tags := screens.tags

def backwards : Fixture where
  resources := bookedScreens.resources.reverse
  rules := bookedScreens.rules.reverse
  busyEvents := bookedScreens.busyEvents.reverse
  relations := bookedScreens.relations.reverse
  properties := bookedScreens.properties.reverse
  tags := bookedScreens.tags.reverse

end Sample

/-- One room is free in the morning and the other one in the afternoon, in whichever order they were
entered. -/
theorem entered_backwards_the_rooms_are_free_alike :
    Sample.bookedScreens.Distinct ∧ Sample.bookedScreens.Reorders Sample.backwards ∧
      (Sample.screenInQuiet.compute .restricted
        (Store.ofFixture Sample.backwards).source).outcome.1 =
          .ok ⟨[⟨⟨1741770000000, 1741791600000⟩, .ofList [1, 2]⟩], []⟩ := by
  have hdistinct : Sample.bookedScreens.Distinct :=
    ⟨by decide +kernel, by decide +kernel, by decide +kernel⟩
  have hreorders : Sample.bookedScreens.Reorders Sample.backwards :=
    ⟨(List.reverse_perm _).symm, (List.reverse_perm _).symm, (List.reverse_perm _).symm,
      (List.reverse_perm _).symm, (List.reverse_perm _).symm, (List.reverse_perm _).symm⟩
  refine ⟨hdistinct, hreorders, ?_⟩
  rw [← Request.the_order_of_filling_does_not_show hdistinct hreorders .restricted]
  cbv

end FreeTime
