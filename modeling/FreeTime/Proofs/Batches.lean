-- The laws of batches. The hierarchy above some resources is asked for batch by batch: what stands
-- at one distance from them is one batch, so nothing is asked for twice and nothing is missed.
import FreeTime.Proofs.Loading

namespace FreeTime

open Reach (Depth Path Reached)

/-! ## Computations and their questions -/

/-- A computation gives a value and asks some questions, whatever was asked before. -/
def Asks {α : Type} (m : Asking α) (a : α) (calls : List Call) : Prop :=
  ∀ before, runFrom m before = (.ok a, before ++ calls)

section

variable {α β : Type}

theorem asks_pure (a : α) : Asks (pure a) a [] := fun before => by
  rw [List.append_nil]
  rfl

/-- What only makes another value of the one that is given asks nothing more. -/
theorem asks_map {m : Asking α} {f : α → Asking β} {a : α} {b : β} {calls : List Call}
    (hm : Asks m a calls) (hf : f a = pure b) : Asks (m >>= f) b calls := by
  intro before
  rw [runFrom_bind_ok (hm before), hf]
  rfl

theorem asks_bind {m : Asking α} {f : α → Asking β} {a : α} {b : β} {first later : List Call}
    (hm : Asks m a first) (hf : Asks (f a) b later) : Asks (m >>= f) b (first ++ later) := by
  intro before
  rw [runFrom_bind_ok (hm before), hf, List.append_assoc]

theorem asks_ask {call : Call} {answer : Except NoAnswer α} {a : α} (h : answer = .ok a) :
    Asks (Asking.ask call answer) a [call] := by
  subst h
  exact fun _ => rfl

theorem Asks.outcome {m : Asking α} {a : α} {calls : List Call} (h : Asks m a calls) :
    m.outcome = (.ok a, calls) := h []

/-- A computation that asks questions gives one value only. -/
theorem Asks.unique {m : Asking α} {a b : α} {calls : List Call} (h : Asks m a calls)
    (hb : Gives m b) : a = b := by
  have hsame := hb []
  rw [h []] at hsame
  exact Except.ok.inj hsame

end

/-! ## Batches by distance -/

namespace Reach

variable {next : Int → List Int} {seeds : List Int}

theorem reached_iff_depth {x : Int} : Reached next seeds x ↔ ∃ n, Depth next seeds n x := by
  constructor
  · rintro ⟨a, ha, n, hsteps⟩
    obtain ⟨m, _, hdepth⟩ := exists_depth ha hsteps
    exact ⟨m, hdepth⟩
  · rintro ⟨n, ⟨a, ha, hsteps⟩, _⟩
    exact ⟨a, ha, n, hsteps⟩

/-- What is reached from something reached is reached. -/
theorem reached_trans {x y : Int} (hx : Reached next seeds x) (hy : Reached next [x] y) :
    Reached next seeds y := by
  obtain ⟨a, ha, n, hsteps⟩ := hx
  obtain ⟨_, hx, m, hfurther⟩ := hy
  obtain rfl := List.mem_singleton.mp hx
  induction hfurther with
  | here => exact ⟨a, ha, n, hsteps⟩
  | snoc _ hc ih =>
    obtain ⟨b, hb, k, hk⟩ := ih hsteps (by simp)
    exact ⟨b, hb, k + 1, .snoc hk hc⟩

/-- What is known stands at no greater distance than a level, and the level is all there is at its
own distance; only who is a member counts. -/
theorem at_congr {seen seen' level level' : List Int} {n : Nat} (h : At next seeds seen level n)
    (hseen : ∀ x, x ∈ seen' ↔ x ∈ seen) (hlevel : ∀ x, x ∈ level' ↔ x ∈ level) :
    At next seeds seen' level' n where
  level x := (hlevel x).trans (h.level x)
  seen x := (hseen x).trans (h.seen x)

/-- Batches from a distance on: each holds in order, and without gaps between them, what stands one
step further from the seeds than the batch before. -/
structure BatchesFrom (next : Int → List Int) (seeds : List Int) (n : Nat)
    (batches : List (List Int)) : Prop where
  filled : ∀ b ∈ batches, b ≠ []
  ascending : ∀ b ∈ batches, b.Pairwise (· < ·)
  depth : ∀ k x, x ∈ batches.getD k [] ↔ Depth next seeds (n + k) x

theorem batchesFrom_nil {n : Nat} (h : ∀ x, ¬ Depth next seeds n x) :
    BatchesFrom next seeds n [] where
  filled _ hb := (List.not_mem_nil hb).elim
  ascending _ hb := (List.not_mem_nil hb).elim
  depth k x := by simpa using no_depth_beyond h k x

theorem batchesFrom_cons {n : Nat} {batch : IdSet} {batches : List (List Int)}
    (hfilled : batch.toList ≠ []) (hbatch : ∀ x, x ∈ batch.toList ↔ Depth next seeds n x)
    (h : BatchesFrom next seeds (n + 1) batches) :
    BatchesFrom next seeds n (batch.toList :: batches) where
  filled := List.forall_mem_cons.mpr ⟨hfilled, h.filled⟩
  ascending := List.forall_mem_cons.mpr ⟨batch.ascending, h.ascending⟩
  depth k x := by
    cases k with
    | zero => exact hbatch x
    | succ k =>
      rw [List.getD_cons_succ, h.depth, Nat.add_right_comm, Nat.add_assoc]

theorem BatchesFrom.tail {n : Nat} {batch : List Int} {batches : List (List Int)}
    (h : BatchesFrom next seeds n (batch :: batches)) : BatchesFrom next seeds (n + 1) batches where
  filled b hb := h.filled b (List.mem_cons_of_mem _ hb)
  ascending b hb := h.ascending b (List.mem_cons_of_mem _ hb)
  depth k x := by
    rw [Nat.add_assoc, Nat.add_comm 1 k, ← h.depth, List.getD_cons_succ]

theorem BatchesFrom.mem_flatten {n : Nat} {batches : List (List Int)}
    (h : BatchesFrom next seeds n batches) {x : Int} :
    x ∈ batches.flatten ↔ ∃ k, Depth next seeds (n + k) x := by
  simp only [mem_flatten_iff_getD, h.depth]

/-- No id stands in two batches, or twice in one, for it has one distance only. -/
theorem BatchesFrom.nodup {n : Nat} {batches : List (List Int)}
    (h : BatchesFrom next seeds n batches) : batches.flatten.Nodup := by
  induction batches generalizing n with
  | nil => exact List.nodup_nil
  | cons batch batches ih =>
    rw [List.flatten_cons, List.nodup_append]
    refine ⟨(h.ascending batch (by simp)).imp fun hlt => Int.ne_of_lt hlt, ih h.tail, ?_⟩
    rintro x hx _ hlater rfl
    have hnear : Depth next seeds (n + 0) x := (h.depth 0 x).mp hx
    obtain ⟨k, hfar⟩ := h.tail.mem_flatten.mp hlater
    have := depth_unique hnear hfar
    omega

end Reach

/-! ## What loading asks -/

namespace Store

/-- The questions of a load: one for each batch of relations. -/
def batchCalls (types : Option (List Int)) (batches : List (List Int)) : List Call :=
  batches.map fun batch => .relations batch types

/-- The parents found of a level that are not known yet are the ids that are new on the next. -/
theorem mem_newParents {s : Store} {types : Option (List Int)} {known level : IdSet} {x : Int} :
    x ∈ Source.newParents known (s.relationsOf level.toList types) ↔
      x ∈ Reach.fresh (s.hierarchy types).parentsOf known.toList level.toList := by
  rw [Source.newParents, IdSet.mem_ofList, Reach.mem_fresh]
  simp only [List.mem_filter, List.mem_map, mem_relationsOf, Ancestry.mem_parentsOf,
    Bool.not_eq_true', ← Bool.not_eq_true, IdSet.contains_iff, ← IdSet.mem_def]
  refine and_congr_left fun _ => ⟨?_, ?_⟩
  · rintro ⟨r, ⟨hr, hchild⟩, rfl⟩
    exact ⟨r.child, hchild, r, hr, rfl, rfl⟩
  · rintro ⟨a, ha, r, hr, rfl, rfl⟩
    exact ⟨r, ⟨hr, ha⟩, rfl⟩

/-- What is asked from a level on, and what is known in the end: the batches begin with the level,
and all that is reached from the seeds is known. -/
def CollectsFrom (s : Store) (types : Option (List Int)) (known level : IdSet)
    (batches : List (List Int)) (all : IdSet) : Prop :=
  ∀ seeds n, Reach.At (s.hierarchy types).parentsOf seeds known.toList level.toList n →
    Reach.BatchesFrom (s.hierarchy types).parentsOf seeds n batches ∧
      ∀ x, x ∈ all ↔ Reached (s.hierarchy types).parentsOf seeds x

theorem collectsFrom_nothing {s : Store} {types : Option (List Int)} {known level : IdSet}
    (h : level.toList = []) : s.CollectsFrom types known level [] known := by
  intro seeds n hat
  have hnone : ∀ x, ¬ Depth (s.hierarchy types).parentsOf seeds n x := by
    intro x hx
    have := (hat.level x).mpr hx
    rw [h] at this
    cases this
  refine ⟨Reach.batchesFrom_nil hnone, fun x => ?_⟩
  rw [IdSet.mem_def, hat.seen, Reach.reached_iff_depth]
  constructor
  · rintro ⟨m, _, hm⟩
    exact ⟨m, hm⟩
  · rintro ⟨m, hm⟩
    -- Whatever stands further off than the level would need something on it.
    refine ⟨m, Nat.le_of_not_lt fun hlt => ?_, hm⟩
    obtain ⟨k, rfl⟩ := Nat.exists_eq_add_of_lt hlt
    exact Reach.no_depth_beyond hnone (k + 1) x hm

theorem collectsFrom_above {s : Store} {types : Option (List Int)} {known level : IdSet}
    {batches : List (List Int)} {all : IdSet} (hlevel : level.toList ≠ [])
    (h : s.CollectsFrom types
      (known.union (Source.newParents known (s.relationsOf level.toList types)))
      (Source.newParents known (s.relationsOf level.toList types)) batches all) :
    s.CollectsFrom types known level (level.toList :: batches) all := by
  intro seeds n hat
  have hlater : ∀ x, x ∈ (Source.newParents known (s.relationsOf level.toList types)).toList ↔
      x ∈ Reach.fresh (s.hierarchy types).parentsOf known.toList level.toList :=
    fun x => mem_newParents
  have hknown : ∀ x, x ∈ (known.union
      (Source.newParents known (s.relationsOf level.toList types))).toList ↔
      x ∈ known.toList ++ Reach.fresh (s.hierarchy types).parentsOf known.toList level.toList :=
    fun x => by
      rw [← IdSet.mem_def, IdSet.mem_union, mem_newParents, List.mem_append, IdSet.mem_def]
  obtain ⟨hbatches, hall⟩ := h seeds (n + 1) (Reach.at_congr (Reach.at_step hat) hknown hlater)
  exact ⟨Reach.batchesFrom_cons hlevel hat.level hbatches, hall⟩

theorem asks_collect (s : Store) (types : Option (List Int)) (known level : IdSet) :
    ∃ found batches all,
      Asks (s.source.collect types known level) (found, all) (batchCalls types batches) ∧
        s.CollectsFrom types known level batches all := by
  -- By the recursion of the loading: a level is one question, and the levels above it follow.
  induction known, level using Source.collect.induct s.source types with
  | case1 known level hnil =>
    refine ⟨[], [], known, ?_, collectsFrom_nothing hnil⟩
    rw [Source.collect, if_pos hnil]
    exact asks_pure _
  | case2 known level hsome ih =>
    obtain ⟨later, batches, all, hasks, hcollects⟩ := ih (s.relationsOf level.toList types) rfl
    refine ⟨s.relationsOf level.toList types ++ later, level.toList :: batches, all, ?_,
      collectsFrom_above hsome hcollects⟩
    rw [Source.collect, if_neg hsome]
    have hask : Asks (modify (· ++ [.relations level.toList types]) : Asking PUnit) ⟨⟩
        [.relations level.toList types] := fun _ => rfl
    exact asks_bind hask (asks_map hasks rfl)

/-! ## What the loaded hierarchy says -/

/-- A hierarchy says of a resource what the store holds, over relations of the given types or over
all: its parents, each once, its type, and all that stands above it. -/
structure Reported (s : Store) (types : Option (List Int)) (g : Ancestry) (x : Int) : Prop where
  parents : ∀ p, p ∈ g.parentsOf x ↔
    ∃ r ∈ s.relations, r.child = x ∧ r.parent = p ∧ types.all (·.contains r.type)
  once : (g.parentsOf x).Nodup
  type : g.typeOf? x = (s.resource? x).map Resource.type
  ancestors : ∀ y, y ∈ ((g.ancestors x).run []).1 ↔
    y ≠ x ∧ Path (s.hierarchy types).parentsOf x y

theorem reported_of_mirrors {s : Store} {types : Option (List Int)} {g : Ancestry}
    {seeds : List Int} (h : g.Mirrors (s.hierarchy types) seeds) {x : Int}
    (hx : Reached (s.hierarchy types).parentsOf seeds x) : s.Reported types g x where
  parents p := by
    rw [← h.parents x hx, Ancestry.mem_parentsOf]
    simp only [hierarchy, allowed, List.mem_filter, and_assoc]
    exact exists_congr fun r => and_congr_right fun _ => ⟨fun h => ⟨h.2.1, h.2.2, h.1⟩,
      fun h => ⟨h.2.2, h.1, h.2.1⟩⟩
  once := distinct_nodup _
  type := by rw [h.types x hx, typeOf_hierarchy]
  ancestors y := by
    have hfrom : g.Mirrors (s.hierarchy types) [x] :=
      ⟨fun y hy => h.parents y (Reach.reached_trans hx hy),
        fun y hy => h.types y (Reach.reached_trans hx hy)⟩
    rw [(g.settled_ancestors x [] g.exact_nil).1, Ancestry.mem_above,
      Ancestry.above_of_mirrors hfrom (by simp)]
    rfl

/-! ## The laws -/

/-- The hierarchy above some seeds is loaded from a store whatever the store holds, cycles too. The
relations are asked for in batches: batch `k` holds in order what stands `k` steps from the seeds,
so each seed and each resource above one is asked for once. Then the types of these are asked
for, and of each of them the loaded hierarchy says what the store holds. -/
theorem loading_asks_for_each_resource_once (s : Store) (seeds : List Int)
    (types : Option (List Int)) :
    let up := (s.hierarchy types).parentsOf
    ∃ (g : Ancestry) (batches : List (List Int)) (ids : IdSet),
      (s.source.loadAncestry seeds types).outcome =
        (.ok g, batchCalls types batches ++ [.resourceTypes ids.toList]) ∧
      (∀ batch ∈ batches, batch ≠ [] ∧ batch.Pairwise (· < ·)) ∧
      (∀ k x, x ∈ batches.getD k [] ↔ Depth up seeds k x) ∧
      batches.flatten.Nodup ∧ (∀ x, x ∈ batches.flatten ↔ Reached up seeds x) ∧
      (∀ x, x ∈ ids ↔ Reached up seeds x) ∧
      ∀ x, Reached up seeds x → s.Reported types g x := by
  intro up
  obtain ⟨found, batches, all, hasks, hcollects⟩ :=
    s.asks_collect types (.ofList seeds) (.ofList seeds)
  have hstart : ∀ x, x ∈ (IdSet.ofList seeds).toList ↔ x ∈ seeds := fun x => IdSet.mem_ofList
  obtain ⟨hbatches, hall⟩ :=
    hcollects seeds 0 (Reach.at_congr (Reach.at_start seeds) hstart hstart)
  have hdepth : ∀ k x, x ∈ batches.getD k [] ↔ Depth up seeds k x := fun k x => by
    rw [hbatches.depth, Nat.zero_add]
  have hload : Asks (s.source.loadAncestry seeds types) ⟨found, s.typesOf all.toList⟩
      (batchCalls types batches ++ [.resourceTypes all.toList]) :=
    asks_bind hasks (asks_map (asks_ask rfl) rfl)
  -- One value only is loaded, so the mirror of the store is this one.
  obtain ⟨g, hgives, hmirrors⟩ := s.gives_loadAncestry seeds types
  obtain rfl := hload.unique hgives
  refine ⟨_, batches, all, hload.outcome, ?_, hdepth, hbatches.nodup, ?_, hall, ?_⟩
  · exact fun batch hbatch => ⟨hbatches.filled batch hbatch, hbatches.ascending batch hbatch⟩
  · intro x
    rw [Reach.mem_flatten_iff_getD, Reach.reached_iff_depth]
    simp only [hdepth]
  · exact fun x hx => reported_of_mirrors hmirrors hx

-- Three resources in a cycle, two of them related twice over, loaded from one that is named twice.
example :
    let round : Store := { Store.empty with
      relations := [⟨2, 1, 1⟩, ⟨2, 1, 5⟩, ⟨3, 2, 1⟩, ⟨1, 3, 1⟩] }
    (round.source.loadAncestry [1, 1] none).outcome.2 =
      batchCalls none [[1], [2], [3]] ++ [.resourceTypes [1, 2, 3]] := by cbv

end Store

end FreeTime
