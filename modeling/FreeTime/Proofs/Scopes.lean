-- The laws of scopes. A filter looks at all that stands above a resource, at its direct parents, or
-- at the nearest of a type. The three agree on what stands above a resource, but for one thing: a
-- resource that is related to itself is among its own parents, and stands above itself in that
-- scope only.
import FreeTime.Proofs.Remembering
import Mathlib

namespace FreeTime

open Reach (Distance Path)

/-! ## Distances from a resource -/

namespace Reach

variable {next : Int → List Int} {a b : Int}

theorem distance_zero : Distance next 0 a b ↔ b = a := by
  rw [← depth_singleton, depth_zero, List.mem_singleton]

/-- Every other id that is at a distance at all is at least one step away. -/
theorem exists_succ_of_distance {n : Nat} (h : Distance next n a b) (hne : b ≠ a) :
    ∃ m, n = m + 1 :=
  Nat.exists_eq_succ_of_ne_zero fun hzero => hne (distance_zero.mp (hzero ▸ h))

theorem ne_of_distance_succ {n : Nat} (h : Distance next (n + 1) a b) : b ≠ a :=
  (exists_distance.mp ⟨n, h⟩).1

end Reach

namespace Ancestry

variable {g : Ancestry} {type id x : Int}

/-! ## The nearest of a type -/

theorem above_of_nearest (h : g.Nearest type id x) : g.Above id x := by
  obtain ⟨_, n, hn, _⟩ := h
  exact Reach.exists_distance.mp ⟨n, hn⟩

/-- Where something of a type stands above a resource, something of it stands nearest. -/
theorem exists_nearest (htype : g.typeOf? x = some type) (h : g.Above id x) :
    ∃ y, g.Nearest type id y := by
  classical
  obtain ⟨n, hn⟩ := Reach.exists_distance.mpr h
  have hsome : ∃ n y, g.typeOf? y = some type ∧ Distance g.parentsOf (n + 1) id y :=
    ⟨n, x, htype, hn⟩
  obtain ⟨y, hy, hd⟩ := Nat.find_spec hsome
  exact ⟨y, hy, Nat.find hsome, hd, fun m z hz hm => Nat.find_min' hsome ⟨z, hz, hm⟩⟩

/-- Something of a type stands nearest at the least distance at which the type stands at all. -/
theorem nearest_iff : g.Nearest type id x ↔ x ≠ id ∧ g.typeOf? x = some type ∧
    ∃ n, Distance g.parentsOf n id x ∧
      ∀ y m, y ≠ id → g.typeOf? y = some type → Distance g.parentsOf m id y → n ≤ m := by
  constructor
  · rintro ⟨htype, n, hn, hmin⟩
    refine ⟨Reach.ne_of_distance_succ hn, htype, n + 1, hn, fun y m hne hy hm => ?_⟩
    obtain ⟨m, rfl⟩ := Reach.exists_succ_of_distance hm hne
    exact Nat.succ_le_succ (hmin m y hy hm)
  · rintro ⟨hne, htype, n, hn, hmin⟩
    obtain ⟨n, rfl⟩ := Reach.exists_succ_of_distance hn hne
    refine ⟨htype, n, hn, fun m y hy hm => ?_⟩
    exact Nat.le_of_succ_le_succ (hmin y (m + 1) (Reach.ne_of_distance_succ hm) hy hm)

theorem distance_one {a b : Int} : Distance g.parentsOf 1 a b ↔ b ≠ a ∧ b ∈ g.parentsOf a := by
  constructor
  · intro h
    refine ⟨Reach.ne_of_distance_succ h, ?_⟩
    obtain _ | ⟨⟨⟩, hb⟩ := h.1
    exact hb
  · rintro ⟨hne, hb⟩
    refine ⟨.snoc (.here a) hb, fun m hm => Nat.one_le_iff_ne_zero.mpr fun hzero => hne ?_⟩
    subst hzero
    cases hm
    rfl

/-- Where a parent other than the resource itself is of a type, the nearest of the type are all such
parents. -/
theorem nearest_iff_of_parent {p : Int} (hp : g.typeOf? p = some type) (hne : p ≠ id)
    (hparent : p ∈ g.parentsOf id) :
    g.Nearest type id x ↔ g.typeOf? x = some type ∧ x ≠ id ∧ x ∈ g.parentsOf id := by
  have hone : Distance g.parentsOf 1 id p := distance_one.mpr ⟨hne, hparent⟩
  constructor
  · rintro ⟨htype, n, hn, hmin⟩
    obtain rfl : n = 0 := Nat.le_zero.mp (hmin 0 p hp hone)
    exact ⟨htype, distance_one.mp hn⟩
  · rintro ⟨htype, hx⟩
    exact ⟨htype, 0, distance_one.mpr hx, fun m _ _ _ => Nat.zero_le m⟩

/-- The nearest of a type stand, in ascending order and each once, at the least distance at which
anything of the type but the resource itself stands; there are none just if nothing else of the type
is reached. This holds of any hierarchy, with cycles, with resources that are their own parents, and
with parents that are shared. -/
theorem the_nearest_stand_at_the_least_distance (g : Ancestry) (id type : Int) :
    (g.nearestOfType id type).toList.Pairwise (· < ·) ∧
      (∀ x, x ∈ (g.nearestOfType id type).toList ↔ x ≠ id ∧ g.typeOf? x = some type ∧
        ∃ n, Distance g.parentsOf n id x ∧
          ∀ y m, y ≠ id → g.typeOf? y = some type → Distance g.parentsOf m id y → n ≤ m) ∧
      ((g.nearestOfType id type).toList = [] ↔
        ∀ x, x ≠ id → Path g.parentsOf id x → g.typeOf? x ≠ some type) := by
  refine ⟨(g.nearestOfType id type).ascending, fun x => mem_nearestOfType.trans nearest_iff, ?_⟩
  rw [List.eq_nil_iff_forall_not_mem]
  constructor
  · intro hnone x hne hpath htype
    obtain ⟨y, hy⟩ := exists_nearest htype ⟨hne, hpath⟩
    exact hnone y (mem_nearestOfType.mpr hy)
  · intro hnone x hx
    have hnearest : g.Nearest type id x := mem_nearestOfType.mp hx
    have habove := above_of_nearest hnearest
    exact hnone x habove.1 habove.2 hnearest.1

-- A diamond: both parents of 3 are of one type, and what stands above them is of another.
example :
    let diamond : Ancestry := ⟨[⟨1, 2, 1⟩, ⟨2, 3, 1⟩, ⟨1, 4, 1⟩, ⟨4, 3, 1⟩, ⟨5, 4, 1⟩],
      [(1, 10), (2, 20), (3, 30), (4, 20), (5, 10)]⟩
    diamond.nearestOfType 3 20 = .ofList [2, 4] ∧ diamond.nearestOfType 3 10 = .ofList [1, 5] ∧
      diamond.nearestOfType 3 99 = .empty := by cbv

/-! ## What a filter looks at -/

/-- The closures that are kept after some questions. -/
def keptAfter (g : Ancestry) (asked : List Question) : Closures :=
  ((asked.mapM g.reply).run []).2

theorem exact_keptAfter (g : Ancestry) (asked : List Question) : g.Exact (g.keptAfter asked) :=
  (settled_mapM asked (fun question _ => g.settled_reply question) [] g.exact_nil).2

/-- What a filter looks at after some questions, had it a given scope. -/
def eligibleIn (g : Ancestry) (asked : List Question) (f : AncestorFilter) (id : Int)
    (scope : AncestorScope) : IdSet :=
  ((g.eligible id { f with scope }).run (g.keptAfter asked)).1

/-- Whether a resource passes a filter after some questions, had the filter a given scope. -/
def passesIn (g : Ancestry) (asked : List Question) (f : ResolvedFilter) (id : Int)
    (scope : AncestorScope) : Bool :=
  ((g.passes { f with filter := { f.filter with scope } } id).run (g.keptAfter asked)).1

variable {asked : List Question} {f : AncestorFilter}

theorem mem_eligibleIn {scope : AncestorScope} :
    x ∈ g.eligibleIn asked f id scope ↔ g.Eligible { f with scope } id x := by
  rw [eligibleIn, (g.settled_eligible id _ _ (g.exact_keptAfter asked)).1, mem_eligibleOf]

theorem mem_eligibleIn_any : x ∈ g.eligibleIn asked f id .anyAncestor ↔
    g.typeOf? x = some f.type ∧ g.Above id x := mem_eligibleIn

theorem mem_eligibleIn_parent : x ∈ g.eligibleIn asked f id .directParent ↔
    g.typeOf? x = some f.type ∧ x ∈ g.parentsOf id := mem_eligibleIn

theorem mem_eligibleIn_nearest : x ∈ g.eligibleIn asked f id .nearestOfType ↔
    g.Nearest f.type id x := mem_eligibleIn

/-- Where one ancestor is enough, a resource passes for the sake of one that is looked at. -/
theorem passesIn_iff {carriers : IdSet} {scope : AncestorScope} (hone : f.everyAncestor = false) :
    g.passesIn asked ⟨f, carriers⟩ id scope = true ↔
      ∃ x ∈ g.eligibleIn asked f id scope, x ∈ carriers := by
  rw [passesIn, (g.settled_passes _ id _ (g.exact_keptAfter asked)).1, admits_iff]
  simp only [mem_eligibleIn, Admits, hone, Bool.false_eq_true, if_false]
  exact and_iff_right_of_imp fun ⟨x, hx, _⟩ => ⟨x, hx⟩

/-! ## Scopes that agree -/

/-- What is looked at in the three scopes is told by one notion of what stands above a resource: the
resource itself is never looked at, parents and nearest are among all that stand above, there are
nearest where there are any, and parents of the type are the nearest. -/
structure ScopesAgree (eligible : AncestorScope → IdSet) (id : Int) : Prop where
  itself : ∀ scope, ¬ id ∈ eligible scope
  parents : ∀ x ∈ eligible .directParent, x ∈ eligible .anyAncestor
  nearest : ∀ x ∈ eligible .nearestOfType, x ∈ eligible .anyAncestor
  some_nearest : eligible .nearestOfType = .empty ↔ eligible .anyAncestor = .empty
  nearest_parents : eligible .directParent ≠ .empty →
    eligible .directParent = eligible .nearestOfType

/-- A resource that is of the type of a filter is related to itself. -/
def VouchesForItself (g : Ancestry) (type id : Int) : Prop :=
  id ∈ g.parentsOf id ∧ g.typeOf? id = some type

theorem itself_mem_eligibleIn {scope : AncestorScope} :
    id ∈ g.eligibleIn asked f id scope ↔
      scope = .directParent ∧ g.VouchesForItself f.type id := by
  cases scope with
  | anyAncestor => simp [mem_eligibleIn_any, Above]
  | directParent => simp [mem_eligibleIn_parent, VouchesForItself, and_comm]
  | nearestOfType =>
    simp only [mem_eligibleIn_nearest, reduceCtorEq, false_and, iff_false]
    exact fun h => (above_of_nearest h).1 rfl

/-- Whatever else is looked at in some scope stands above the resource. -/
theorem any_of_other {scope : AncestorScope} (hne : x ≠ id)
    (hx : x ∈ g.eligibleIn asked f id scope) : x ∈ g.eligibleIn asked f id .anyAncestor := by
  cases scope with
  | anyAncestor => exact hx
  | directParent =>
    rw [mem_eligibleIn_parent] at hx
    exact mem_eligibleIn_any.mpr ⟨hx.1, hne, .step hx.2⟩
  | nearestOfType =>
    rw [mem_eligibleIn_nearest] at hx
    exact mem_eligibleIn_any.mpr ⟨hx.1, above_of_nearest hx⟩

/-- What is looked at agrees in all scopes once the resource itself is left out. -/
theorem scopesAgree_of_mem {eligible : AncestorScope → IdSet}
    (h : ∀ scope x, x ∈ eligible scope ↔ x ∈ g.eligibleIn asked f id scope ∧ x ≠ id) :
    ScopesAgree eligible id := by
  have hany : ∀ scope, ∀ x ∈ eligible scope, x ∈ eligible .anyAncestor := fun scope x hx => by
    obtain ⟨hx, hne⟩ := (h scope x).mp hx
    exact (h _ x).mpr ⟨any_of_other hne hx, hne⟩
  refine ⟨fun scope hid => ((h scope id).mp hid).2 rfl, hany _, hany _, ?_, fun hsome => ?_⟩
  · rw [IdSet.eq_empty_iff, IdSet.eq_empty_iff]
    refine ⟨fun hnone x hx => ?_, fun hnone x hx => hnone x (hany _ x hx)⟩
    obtain ⟨htype, habove⟩ := mem_eligibleIn_any.mp ((h _ x).mp hx).1
    obtain ⟨y, hy⟩ := exists_nearest htype habove
    exact hnone y ((h _ y).mpr ⟨mem_eligibleIn_nearest.mpr hy, (above_of_nearest hy).1⟩)
  · -- The parents that are of the type stand at distance one, so they are the nearest.
    rw [Ne, IdSet.eq_empty_iff, not_forall_not] at hsome
    obtain ⟨p, hp⟩ := hsome
    obtain ⟨hp, hpne⟩ := (h _ p).mp hp
    obtain ⟨hptype, hparent⟩ := mem_eligibleIn_parent.mp hp
    have hsame : ∀ x, x ∈ g.eligibleIn asked f id .nearestOfType ↔
        x ∈ g.eligibleIn asked f id .directParent ∧ x ≠ id := fun x => by
      rw [mem_eligibleIn_nearest, mem_eligibleIn_parent, nearest_iff_of_parent hptype hpne hparent,
        and_right_comm, and_assoc]
    refine IdSet.ext_mem fun x => ?_
    rw [h, h, hsame, and_assoc, and_self]

/-! ## The law -/

/-- The scopes of a filter agree at a resource just if it does not vouch for itself. Where it does,
it is looked at among its own parents and in no other scope, and all scopes agree on the others. So
a resource that passes for the sake of one ancestor in some scope passes for the sake of one where
all that stand above it are looked at, unless it carries what is asked for and vouches for itself.
-/
theorem the_scopes_agree_unless_a_resource_vouches_for_itself (g : Ancestry)
    (asked : List Question) (f : AncestorFilter) (id : Int) :
    (ScopesAgree (g.eligibleIn asked f id) id ↔ ¬ g.VouchesForItself f.type id) ∧
      (∀ scope, id ∈ g.eligibleIn asked f id scope ↔
        scope = .directParent ∧ g.VouchesForItself f.type id) ∧
      ScopesAgree (fun scope => (g.eligibleIn asked f id scope).filter (· != id)) id ∧
      ∀ carriers scope, f.everyAncestor = false → g.passesIn asked ⟨f, carriers⟩ id scope = true →
        g.passesIn asked ⟨f, carriers⟩ id .anyAncestor = true ∨
          scope = .directParent ∧ g.VouchesForItself f.type id ∧ id ∈ carriers := by
  refine ⟨⟨fun h hself => ?_, fun hnot => ?_⟩, fun scope => itself_mem_eligibleIn, ?_, ?_⟩
  · exact h.itself .directParent (itself_mem_eligibleIn.mpr ⟨rfl, hself⟩)
  · refine scopesAgree_of_mem fun scope x => (and_iff_left_of_imp ?_).symm
    rintro hx rfl
    exact hnot (itself_mem_eligibleIn.mp hx).2
  · have hothers : ∀ scope x, x ∈ (g.eligibleIn asked f id scope).filter (· != id) ↔
        x ∈ g.eligibleIn asked f id scope ∧ x ≠ id := fun scope x => by simp
    exact scopesAgree_of_mem hothers
  · intro carriers scope hone hpasses
    rw [passesIn_iff hone] at hpasses
    obtain ⟨x, hx, hcarries⟩ := hpasses
    by_cases hself : x = id
    · subst hself
      obtain ⟨hscope, hvouches⟩ := itself_mem_eligibleIn.mp hx
      exact Or.inr ⟨hscope, hvouches, hcarries⟩
    · exact Or.inl ((passesIn_iff hone).mpr ⟨x, any_of_other hself hx, hcarries⟩)

/-- A building that is related to itself is looked at for its own sake among its parents, and in no
other scope. So it passes a filter for what it carries itself, and fails the same filter where all
that stands above it is looked at. -/
theorem a_building_may_vouch_for_itself :
    let g : Ancestry := ⟨[⟨1, 1, 1⟩], [(1, 3)]⟩
    let f : AncestorFilter := ⟨3, [7], false, .any, .directParent, false⟩
    g.eligibleIn [] f 1 .directParent = .singleton 1 ∧
      g.eligibleIn [] f 1 .anyAncestor = .empty ∧ g.eligibleIn [] f 1 .nearestOfType = .empty ∧
      g.passesIn [] ⟨f, .singleton 1⟩ 1 .directParent = true ∧
      g.passesIn [] ⟨f, .singleton 1⟩ 1 .anyAncestor = false ∧
      ¬ ScopesAgree (g.eligibleIn [] f 1) 1 := by
  intro g f
  have hparent : g.eligibleIn [] f 1 .directParent = .singleton 1 := by cbv
  refine ⟨hparent, by cbv, by cbv, by cbv, by cbv, fun h => h.itself .directParent ?_⟩
  rw [hparent, IdSet.mem_singleton]

end Ancestry

end FreeTime
