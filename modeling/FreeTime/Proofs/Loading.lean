-- The laws of loading: of the resources that are asked for, and of all that stands above them, the
-- loaded hierarchy says what the whole store says.
import FreeTime.Ancestry.Load
import FreeTime.Proofs.Passing
import FreeTime.Proofs.Runs
import FreeTime.Store

namespace FreeTime

theorem gives_ask {α : Type} {call : Call} {answer : Except NoAnswer α} {a : α}
    (h : answer = .ok a) : Gives (Asking.ask call answer) a := by
  intro calls
  rw [Asking.ask, runFrom_bind, runFrom_modify]
  exact h

/-- A list of entries that all agree with a function, and that has one where the function has a
value, finds what the function gives. -/
theorem lookup_eq {α : Type} {entries : List (Int × α)} {f : Int → Option α} {id : Int}
    (hall : ∀ e ∈ entries, f e.1 = some e.2) (hhas : ∀ a, f id = some a → (id, a) ∈ entries) :
    entries.lookup id = f id := by
  cases hlook : entries.lookup id with
  | some a =>
    obtain ⟨before, after, rfl, _⟩ := List.lookup_eq_some_iff.mp hlook
    exact (hall (id, a) (by simp)).symm
  | none =>
    cases hf : f id with
    | none => rfl
    | some a =>
      have := List.lookup_eq_none_iff.mp hlook (id, a) (hhas a hf)
      simp at this

namespace Store

/-! ## The whole hierarchy -/

/-- The relations of the given types, or all of them. -/
def allowed (s : Store) (types : Option (List Int)) : List Relation :=
  s.relations.filter fun r => types.all (·.contains r.type)

/-- All that the store knows of the hierarchy, over relations of the given types or over all. -/
def hierarchy (s : Store) (types : Option (List Int)) : Ancestry :=
  ⟨s.allowed types, s.typesOf (s.resources.map Resource.id)⟩

theorem mem_relationsOf {s : Store} {children : List Int} {types : Option (List Int)}
    {r : Relation} : r ∈ s.relationsOf children types ↔ r ∈ s.allowed types ∧ r.child ∈ children := by
  simp only [relationsOf, allowed, List.mem_flatMap, List.mem_filter, Bool.and_eq_true,
    decide_eq_true_eq]
  constructor
  · rintro ⟨_, hchild, hr, rfl, htype⟩
    exact ⟨⟨hr, htype⟩, hchild⟩
  · rintro ⟨⟨hr, htype⟩, hchild⟩
    exact ⟨_, hchild, hr, rfl, htype⟩

/-- What is asked of some resources is found for each of them as the resource has it. -/
theorem lookup_asked {α : Type} (s : Store) (f : Resource → α) {ids : List Int} {id : Int}
    (h : id ∈ ids) :
    ((IdSet.ofList ids).toList.filterMap fun id =>
      (s.resource? id).map fun r => (id, f r)).reverse.lookup id = (s.resource? id).map f := by
  refine lookup_eq (f := fun id => (s.resource? id).map f) ?_ ?_
  · intro e he
    rw [List.mem_reverse, List.mem_filterMap] at he
    obtain ⟨x, _, hx⟩ := he
    obtain ⟨r, hr, rfl⟩ := Option.map_eq_some_iff.mp hx
    simp [hr]
  · intro a ha
    obtain ⟨r, hr, rfl⟩ := Option.map_eq_some_iff.mp ha
    rw [List.mem_reverse, List.mem_filterMap]
    exact ⟨id, IdSet.mem_def.mp (IdSet.mem_ofList.mpr h), by simp [hr]⟩

theorem typeOf_hierarchy (s : Store) (types : Option (List Int)) (id : Int) :
    (s.hierarchy types).typeOf? id = (s.resource? id).map Resource.type := by
  by_cases hmem : id ∈ s.resources.map Resource.id
  · exact s.lookup_asked Resource.type hmem
  · have hnone : s.resource? id = none := by
      rw [resource?, List.find?_eq_none]
      intro r hr hid
      exact hmem (List.mem_map.mpr ⟨r, hr, of_decide_eq_true hid⟩)
    have hlook : (s.hierarchy types).typeOf? id = none := by
      apply List.lookup_eq_none_iff.mpr
      intro e he
      rw [List.mem_reverse, hierarchy, typesOf, List.mem_filterMap] at he
      obtain ⟨x, hx, hx'⟩ := he
      obtain ⟨r, _, rfl⟩ := Option.map_eq_some_iff.mp hx'
      have hx := IdSet.mem_ofList.mp (IdSet.mem_def.mpr hx)
      rw [bne_iff_ne]
      rintro rfl
      exact hmem hx
    rw [hlook, hnone]
    rfl

/-! ## Levels of relations -/

/-- What is found above a level, where some ids are known: the relations found are the store's, all
that they name is known in the end, and so are the relations of all that is known in the end,
except of what was known before the level. -/
structure Found (s : Store) (types : Option (List Int)) (known level : IdSet)
    (found : List Relation) (all : IdSet) : Prop where
  stored : ∀ r ∈ found, r ∈ s.allowed types
  kept : ∀ x ∈ known, x ∈ all
  complete : ∀ x ∈ all, x ∈ known ∧ ¬ x ∈ level ∨ ∀ r ∈ s.allowed types, r.child = x → r ∈ found
  closed : ∀ r ∈ found, r.parent ∈ all

theorem found_nothing (s : Store) (types : Option (List Int)) (known : IdSet) {level : IdSet}
    (h : level.toList = []) : s.Found types known level [] known where
  stored _ hr := (List.not_mem_nil hr).elim
  kept _ hx := hx
  complete _ hx := Or.inl ⟨hx, fun hl => List.not_mem_nil (h ▸ IdSet.mem_def.mp hl)⟩
  closed _ hr := (List.not_mem_nil hr).elim

/-- What is found above a level and above its parents is found above both. -/
theorem found_above {s : Store} {types : Option (List Int)} {known level : IdSet}
    {later : List Relation} {all : IdSet}
    (h : s.Found types (known.union (Source.newParents known (s.relationsOf level.toList types)))
      (Source.newParents known (s.relationsOf level.toList types)) later all) :
    s.Found types known level (s.relationsOf level.toList types ++ later) all where
  stored r hr := by
    rcases List.mem_append.mp hr with hr | hr
    · exact (mem_relationsOf.mp hr).1
    · exact h.stored r hr
  kept x hx := h.kept x (IdSet.mem_union.mpr (Or.inl hx))
  complete x hx := by
    rcases h.complete x hx with ⟨hknown, hnew⟩ | hfound
    · have hx := (IdSet.mem_union.mp hknown).resolve_right hnew
      by_cases hlevel : x ∈ level
      · refine Or.inr fun r hr hchild => List.mem_append_left _ ?_
        exact mem_relationsOf.mpr ⟨hr, hchild ▸ hlevel⟩
      · exact Or.inl ⟨hx, hlevel⟩
    · exact Or.inr fun r hr hchild => List.mem_append_right _ (hfound r hr hchild)
  closed r hr := by
    rcases List.mem_append.mp hr with hr | hr
    · refine h.kept _ (IdSet.mem_union.mpr ?_)
      by_cases hknown : r.parent ∈ known
      · exact Or.inl hknown
      · refine Or.inr (IdSet.mem_ofList.mpr (List.mem_filter.mpr ⟨List.mem_map_of_mem hr, ?_⟩))
        rw [Bool.not_eq_true', ← Bool.not_eq_true, IdSet.contains_iff]
        exact hknown
    · exact h.closed r hr

theorem gives_collect (s : Store) (types : Option (List Int)) (known level : IdSet) :
    ∃ found all, Gives (s.source.collect types known level) (found, all) ∧
      s.Found types known level found all := by
  -- By the recursion of the loading, which ends because each level names parents not known yet.
  induction known, level using Source.collect.induct s.source types with
  | case1 known level hnil =>
    refine ⟨[], known, ?_, s.found_nothing types known hnil⟩
    rw [Source.collect, if_pos hnil]
    exact gives_pure _
  | case2 known level hsome ih =>
    obtain ⟨later, all, hgives, hfound⟩ := ih (s.relationsOf level.toList types) rfl
    refine ⟨_, all, ?_, found_above hfound⟩
    rw [Source.collect, if_neg hsome]
    exact gives_bind (fun _ => rfl) (gives_bind hgives (gives_pure _))

end Store

/-! ## The loaded hierarchy -/

namespace Ancestry

/-- One hierarchy says of some resources, and of all above them, what another one says. -/
structure Mirrors (g whole : Ancestry) (seeds : List Int) : Prop where
  parents : ∀ x, Reach.Reached whole.parentsOf seeds x →
    ∀ p, p ∈ whole.parentsOf x ↔ p ∈ g.parentsOf x
  types : ∀ x, Reach.Reached whole.parentsOf seeds x → g.typeOf? x = whole.typeOf? x

end Ancestry

namespace Store

theorem gives_loadAncestry (s : Store) (seeds : List Int) (types : Option (List Int)) :
    ∃ g, Gives (s.source.loadAncestry seeds types) g ∧ g.Mirrors (s.hierarchy types) seeds := by
  obtain ⟨found, all, hgives, hfound⟩ := s.gives_collect types (.ofList seeds) (.ofList seeds)
  refine ⟨⟨found, s.typesOf all.toList⟩, gives_bind hgives (gives_bind (gives_ask rfl)
    (gives_pure _)), ?_⟩
  have hcomplete : ∀ x ∈ all, ∀ r ∈ s.allowed types, r.child = x → r ∈ found := fun x hx =>
    (hfound.complete x hx).resolve_left fun h => h.2 h.1
  have hreached : ∀ x, Reach.Reached (s.hierarchy types).parentsOf seeds x → x ∈ all := by
    rintro x ⟨a, ha, n, hsteps⟩
    induction hsteps with
    | here => exact hfound.kept _ (IdSet.mem_ofList.mpr ha)
    | snoc _ hp ih =>
      obtain ⟨r, hr, hchild, rfl⟩ := Ancestry.mem_parentsOf.mp hp
      exact hfound.closed r (hcomplete _ (ih ha) r hr hchild)
  refine ⟨fun x hx p => ?_, fun x hx => ?_⟩
  · rw [Ancestry.mem_parentsOf, Ancestry.mem_parentsOf]
    constructor
    · rintro ⟨r, hr, hchild, hp⟩
      exact ⟨r, hcomplete x (hreached x hx) r hr hchild, hchild, hp⟩
    · rintro ⟨r, hr, hchild, hp⟩
      exact ⟨r, hfound.stored r hr, hchild, hp⟩
  · rw [typeOf_hierarchy]
    exact s.lookup_asked Resource.type (hreached x hx)

end Store

namespace Ancestry

/-! ## What the loaded hierarchy answers -/

variable {g whole : Ancestry} {seeds : List Int} {id x : Int}

theorem steps_of_mirrors (h : g.Mirrors whole seeds) (hid : id ∈ seeds) {n : Nat} :
    Reach.Steps g.parentsOf n id x ↔ Reach.Steps whole.parentsOf n id x :=
  Reach.steps_congr fun n b hb => h.parents b ⟨id, hid, n, hb⟩

theorem above_of_mirrors (h : g.Mirrors whole seeds) (hid : id ∈ seeds) :
    g.Above id x ↔ whole.Above id x := by
  simp only [Above, Reach.path_iff_steps, steps_of_mirrors h hid]

theorem typeOf_of_mirrors (h : g.Mirrors whole seeds) (hid : id ∈ seeds) {n : Nat}
    (hx : Reach.Steps whole.parentsOf n id x) : g.typeOf? x = whole.typeOf? x :=
  h.types x ⟨id, hid, n, hx⟩

theorem nearest_of_mirrors (h : g.Mirrors whole seeds) (hid : id ∈ seeds) {type : Int} :
    g.Nearest type id x ↔ whole.Nearest type id x := by
  have hdistance : ∀ n y, Reach.Distance g.parentsOf n id y ↔
      Reach.Distance whole.parentsOf n id y := fun n y => by
    simp only [Reach.Distance, steps_of_mirrors h hid]
  have htype : ∀ n y, Reach.Distance whole.parentsOf n id y → g.typeOf? y = whole.typeOf? y :=
    fun n y hy => typeOf_of_mirrors h hid hy.1
  simp only [Nearest, hdistance]
  constructor
  · rintro ⟨hx, n, hn, hmin⟩
    refine ⟨htype _ x hn ▸ hx, n, hn, fun m y hy hm => hmin m y ?_ hm⟩
    rw [htype _ y hm, hy]
  · rintro ⟨hx, n, hn, hmin⟩
    refine ⟨(htype _ x hn).trans hx, n, hn, fun m y hy hm => hmin m y ?_ hm⟩
    rw [← htype _ y hm, hy]

/-- A filter looks at the same ancestors in the loaded hierarchy as in the whole one. -/
theorem eligible_of_mirrors (h : g.Mirrors whole seeds) (hid : id ∈ seeds) (f : AncestorFilter) :
    g.Eligible f id x ↔ whole.Eligible f id x := by
  unfold Eligible
  cases f.scope with
  | anyAncestor =>
    simp only [above_of_mirrors h hid]
    apply and_congr_left
    intro habove
    obtain ⟨n, hn⟩ := Reach.path_iff_steps.mp habove.2
    rw [typeOf_of_mirrors h hid hn]
  | directParent =>
    simp only [← h.parents id ⟨id, hid, 0, .here id⟩]
    apply and_congr_left
    intro hp
    rw [typeOf_of_mirrors h hid (.snoc (.here id) hp)]
  | nearestOfType => exact nearest_of_mirrors h hid

end Ancestry

end FreeTime
