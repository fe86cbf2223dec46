-- The law of what a store lists below a property: the property itself, then all that is reached
-- from it through the links that were entered, each once and the nearest first, also where the
-- links go round in a circle.
import FreeTime.Proofs.Properties
import FreeTime.Proofs.Reach

namespace FreeTime

namespace Store

/-! ## Links -/

/-- A property lies a number of links below another one. A node that names its parent is a link
from the parent to the node. -/
inductive Below (nodes : List PropertyNode) (top : Int) : Nat → Int → Prop
  | top : Below nodes top 0 top
  | link {n : Nat} {a b : Int} :
      Below nodes top n a → ⟨b, some a⟩ ∈ nodes → Below nodes top (n + 1) b

/-- A property lies a number of links below another one, and no way there is shorter. -/
def LiesAt (nodes : List PropertyNode) (top : Int) (n : Nat) (id : Int) : Prop :=
  Below nodes top n id ∧ ∀ m, Below nodes top m id → n ≤ m

theorem properties_foldl_insertProperty (nodes : List PropertyNode) (s : Store) :
    (nodes.foldl (fun s n => s.insertProperty n) s).properties = s.properties ++ nodes := by
  induction nodes generalizing s with
  | nil => simp
  | cons node nodes ih =>
    rw [List.foldl_cons, ih]
    simp [insertProperty]

variable {s : Store}

theorem mem_childrenOf {a b : Int} : b ∈ s.childrenOf a ↔ ⟨b, some a⟩ ∈ s.properties := by
  unfold childrenOf
  rw [List.mem_map]
  constructor
  · rintro ⟨⟨_, parent⟩, hnode, rfl⟩
    obtain ⟨hmem, hparent⟩ := List.mem_filter.mp hnode
    obtain rfl : parent = some a := of_decide_eq_true hparent
    exact hmem
  · exact fun h => ⟨⟨b, some a⟩, List.mem_filter.mpr ⟨h, decide_eq_true rfl⟩, rfl⟩

/-- The children that a store looks up are the links that were entered. -/
theorem steps_iff_below {n : Nat} {p q : Int} :
    Reach.Steps s.childrenOf n p q ↔ Below s.properties p n q := by
  constructor
  · intro h
    induction h with
    | here => exact .top
    | snoc _ hc ih => exact .link ih (mem_childrenOf.mp hc)
  · intro h
    induction h with
    | top => exact .here p
    | link _ hc ih => exact .snoc ih (mem_childrenOf.mpr hc)

theorem depth_iff_liesAt {n : Nat} {p q : Int} :
    Reach.Depth s.childrenOf [p] n q ↔ LiesAt s.properties p n q := by
  rw [Reach.depth_singleton]
  unfold Reach.Distance LiesAt
  simp only [steps_iff_below]

/-! ## The list -/

theorem mem_descendantsOf_iff_below {p q : Int} :
    q ∈ s.descendantsOf p ↔ ∃ n, Below s.properties p n q := by
  rw [mem_descendantsOf, Reach.path_iff_steps]
  simp only [steps_iff_below]
  constructor
  · rintro (rfl | ⟨n, h⟩)
    · exact ⟨0, .top⟩
    · exact ⟨n + 1, h⟩
  · rintro ⟨n, h⟩
    cases h with
    | top => exact Or.inl rfl
    | link h hc => exact Or.inr ⟨_, .link h hc⟩

theorem descendantsOf_nodup (s : Store) (p : Int) : (s.descendantsOf p).Nodup :=
  Reach.nodup_append_levels s.childrenOf_within (List.nodup_singleton p)

theorem descendantsOf_pairwise_le (s : Store) (p : Int) :
    (s.descendantsOf p).Pairwise fun a b =>
      ∃ m n, m ≤ n ∧ LiesAt s.properties p m a ∧ LiesAt s.properties p n b := by
  have hstart : LiesAt s.properties p 0 p := ⟨.top, fun m _ => Nat.zero_le m⟩
  have hlevels := Reach.levels_pairwise_le s.childrenOf_within (Reach.at_start [p])
  simp only [depth_iff_liesAt] at hlevels
  unfold descendantsOf
  refine List.pairwise_cons.mpr ⟨?_, hlevels⟩
  intro q hq
  obtain ⟨i, hi⟩ := Reach.mem_flatten_iff_getD.mp hq
  have hd := (Reach.mem_levels _ (Reach.at_start [p]) i q).mp hi
  exact ⟨0, 0 + 1 + i, Nat.zero_le _, hstart, depth_iff_liesAt.mp hd⟩

/-! ## The law -/

/-- Whatever nodes are entered, with repeats, with several parents or in a circle, a walk with a
queue from any property, known or not, comes to an end, and a store answers with the property and
what the walk lists. The answer holds just what is reached through the links, each once, and no
property comes after one that lies further off. -/
theorem the_subtree_is_listed_nearest_first (s : Store) (nodes : List PropertyNode) (p : Int) :
    let filled := nodes.foldl (fun s n => s.insertProperty n) s
    let links := s.properties ++ nodes
    ∃ below, Reach.Drains filled.childrenOf [p] [p] below ∧
      filled.source.descendants p = .ok (p :: below) ∧ (p :: below).Nodup ∧
      (∀ q, q ∈ p :: below ↔ ∃ n, Below links p n q) ∧
      (p :: below).Pairwise fun a b => ∃ m n, m ≤ n ∧ LiesAt links p m a ∧ LiesAt links p n b := by
  intro filled links
  have hlinks : filled.properties = links := properties_foldl_insertProperty nodes s
  have hdrains := Reach.drains_levels filled.childrenOf_within [p] [p]
  refine ⟨_, hdrains, rfl, filled.descendantsOf_nodup p, ?_, ?_⟩
  · intro q
    rw [← hlinks]
    exact mem_descendantsOf_iff_below
  · rw [← hlinks]
    exact filled.descendantsOf_pairwise_le p

end Store

/-- Links that go round in a circle, a property below itself, one with two parents and a link that
is entered twice: what is two links off still comes once, after what is one link off. -/
example :
    ([⟨2, some 1⟩, ⟨3, some 1⟩, ⟨4, some 2⟩, ⟨1, some 4⟩, ⟨4, some 4⟩, ⟨3, some 2⟩, ⟨2, some 1⟩,
      ⟨9, none⟩].foldl (fun s n => s.insertProperty n) Store.empty).descendantsOf 1 =
      [1, 2, 3, 4] := by
  cbv

end FreeTime
