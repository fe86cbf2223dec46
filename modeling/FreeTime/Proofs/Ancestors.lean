-- The laws of the hierarchy: whatever ancestors are kept already, a walk up finds all that stands
-- above a resource and nothing else. So what is kept never shows in an answer.
import FreeTime.Filter
import FreeTime.Proofs.Reach

namespace FreeTime

namespace Ancestry

open Reach (Path)

variable {g : Ancestry} {α β : Type}

/-! ## Walking up -/

/-- One resource stands above another one at some height; none stands above itself. -/
def Above (g : Ancestry) (id x : Int) : Prop := x ≠ id ∧ Path g.parentsOf id x

/-- The closures that are kept hold just what stands above their resources. -/
def Exact (g : Ancestry) (known : Closures) : Prop :=
  ∀ id above, known.lookup id = some above → ∀ x, x ∈ above ↔ g.Above id x

/-- A walk up on its way. All that is seen or queued stands above the start, the start itself is
not seen, and whatever stands directly above the start or above what is seen is the start, seen
or queued. -/
structure Climbing (g : Ancestry) (id : Int) (queue : List Int) (seen : IdSet) : Prop where
  queued : ∀ x ∈ queue, Path g.parentsOf id x
  reached : ∀ x ∈ seen, g.Above id x
  first : ∀ p ∈ g.parentsOf id, p = id ∨ p ∈ seen ∨ p ∈ queue
  onward : ∀ x ∈ seen, ∀ p ∈ g.parentsOf x, p = id ∨ p ∈ seen ∨ p ∈ queue

theorem climbing_start (g : Ancestry) (id : Int) : g.Climbing id (g.parentsOf id) .empty where
  queued _ hx := .step hx
  reached _ hx := (IdSet.not_mem_empty hx).elim
  first _ hp := Or.inr (Or.inr hp)
  onward _ hx := (IdSet.not_mem_empty hx).elim

/-- An id that is the start or is seen already leaves the queue. -/
theorem climbing_skip {id p : Int} {rest : List Int} {seen : IdSet}
    (h : g.Climbing id (p :: rest) seen) (hold : p = id ∨ p ∈ seen) : g.Climbing id rest seen where
  queued x hx := h.queued x (List.mem_cons_of_mem _ hx)
  reached := h.reached
  first q hq := by
    rcases h.first q hq with hid | hseen | hqueue
    · exact Or.inl hid
    · exact Or.inr (Or.inl hseen)
    · rcases List.mem_cons.mp hqueue with rfl | hrest
      · exact hold.imp_right Or.inl
      · exact Or.inr (Or.inr hrest)
  onward x hx q hq := by
    rcases h.onward x hx q hq with hid | hseen | hqueue
    · exact Or.inl hid
    · exact Or.inr (Or.inl hseen)
    · rcases List.mem_cons.mp hqueue with rfl | hrest
      · exact hold.imp_right Or.inl
      · exact Or.inr (Or.inr hrest)

/-- Seeing more, with its parents seen or queued, keeps a walk on its way. -/
theorem climbing_grow {id p : Int} {rest later : List Int} {seen more : IdSet}
    (h : g.Climbing id (p :: rest) seen) (hp : p ∈ more)
    (hseen : ∀ x ∈ seen, x ∈ more) (hlater : ∀ x ∈ rest, x ∈ later)
    (hqueued : ∀ x ∈ later, Path g.parentsOf id x) (hreached : ∀ x ∈ more, g.Above id x)
    (honward : ∀ x ∈ more, x ∉ seen → ∀ q ∈ g.parentsOf x, q = id ∨ q ∈ more ∨ q ∈ later) :
    g.Climbing id later more := by
  have hkeep : ∀ q, (q = id ∨ q ∈ seen ∨ q ∈ p :: rest) → q = id ∨ q ∈ more ∨ q ∈ later := by
    rintro q (hid | hq | hq)
    · exact Or.inl hid
    · exact Or.inr (Or.inl (hseen q hq))
    · rcases List.mem_cons.mp hq with rfl | hq
      · exact Or.inr (Or.inl hp)
      · exact Or.inr (Or.inr (hlater q hq))
  refine ⟨hqueued, hreached, fun q hq => hkeep q (h.first q hq), ?_⟩
  intro x hx q hq
  by_cases hold : x ∈ seen
  · exact hkeep q (h.onward x hold q hq)
  · exact honward x hx hold q hq

/-- An id whose closure is kept brings all of it: whatever stands above a member of the closure
is a member again, or the id. -/
theorem climbing_known {id p : Int} {rest : List Int} {seen above : IdSet}
    (h : g.Climbing id (p :: rest) seen) (hp : p ≠ id) (habove : ∀ x, x ∈ above ↔ g.Above p x) :
    g.Climbing id rest ((seen.insert p).union (above.filter (· != id))) := by
  have hpath : Path g.parentsOf id p := h.queued p (by simp)
  have hmem : ∀ x, x ∈ (seen.insert p).union (above.filter (· != id)) ↔
      (x = p ∨ x ∈ seen) ∨ g.Above p x ∧ x ≠ id := by
    intro x
    simp [habove]
  refine climbing_grow h ((hmem p).mpr (by simp)) (fun x hx => (hmem x).mpr (by simp [hx]))
    (fun x hx => hx) (fun x hx => h.queued x (List.mem_cons_of_mem _ hx)) ?_ ?_
  · intro x hx
    rcases (hmem x).mp hx with (rfl | hx) | ⟨hx, hne⟩
    · exact ⟨hp, hpath⟩
    · exact h.reached x hx
    · exact ⟨hne, Reach.path_trans hpath hx.2⟩
  · intro x hx hnew q hq
    -- The closure lacks `p` itself, and `id`; both are accounted for below.
    have hup : Path g.parentsOf p q := by
      rcases (hmem x).mp hx with (rfl | hx) | ⟨hx, _⟩
      · exact .step hq
      · exact absurd hx hnew
      · exact .snoc hx.2 hq
    by_cases hid : q = id
    · exact Or.inl hid
    · refine Or.inr (Or.inl ((hmem q).mpr ?_))
      by_cases hqp : q = p
      · exact Or.inl (Or.inl hqp)
      · exact Or.inr ⟨⟨hqp, hup⟩, hid⟩

/-- Any other new id queues its parents. -/
theorem climbing_unknown {id p : Int} {rest : List Int} {seen : IdSet}
    (h : g.Climbing id (p :: rest) seen) (hp : p ≠ id) :
    g.Climbing id (rest ++ g.parentsOf p) (seen.insert p) := by
  have hpath : Path g.parentsOf id p := h.queued p (by simp)
  refine climbing_grow h (IdSet.mem_insert.mpr (Or.inl rfl))
    (fun x hx => IdSet.mem_insert.mpr (Or.inr hx)) (fun x hx => List.mem_append_left _ hx) ?_ ?_ ?_
  · intro x hx
    rcases List.mem_append.mp hx with hx | hx
    · exact h.queued x (List.mem_cons_of_mem _ hx)
    · exact .snoc hpath hx
  · intro x hx
    rcases IdSet.mem_insert.mp hx with rfl | hx
    · exact ⟨hp, hpath⟩
    · exact h.reached x hx
  · intro x hx hnew q hq
    rcases IdSet.mem_insert.mp hx with rfl | hx
    · exact Or.inr (Or.inr (List.mem_append_right _ hq))
    · exact absurd hx hnew

/-- A walk whose queue is empty has seen all that stands above its start. -/
theorem climbing_done {id : Int} {seen : IdSet} (h : g.Climbing id [] seen) (x : Int) :
    x ∈ seen ↔ g.Above id x := by
  refine ⟨h.reached x, fun hx => ?_⟩
  have hall : x = id ∨ x ∈ seen := by
    refine Reach.closed_of_path (P := fun x => x = id ∨ x ∈ seen) ?_ ?_ hx.2
    · intro p hp
      simpa using h.first p hp
    · rintro p (rfl | hseen) q hq
      · simpa using h.first q hq
      · simpa using h.onward p hseen q hq
  exact hall.resolve_left hx.1

theorem mem_walkUp {known : Closures} (hknown : g.Exact known) {id : Int} {queue : List Int}
    {seen : IdSet} (hpool : ∀ p ∈ queue, p ∈ g.pool) (h : g.Climbing id queue seen) (x : Int) :
    x ∈ g.walkUp known id queue seen hpool ↔ g.Above id x := by
  -- The head of the queue is old, or its closure is kept, or its parents queue up.
  fun_induction walkUp g known id queue seen hpool with
  | case1 => exact climbing_done h x
  | case2 _ _ _ _ hold _ ih => exact ih (climbing_skip h hold)
  | case3 _ _ _ _ hnew above hlook _ ih =>
    rw [not_or] at hnew
    exact ih (climbing_known h hnew.1 (hknown _ _ hlook))
  | case4 _ _ _ _ hnew _ _ ih =>
    rw [not_or] at hnew
    exact ih (climbing_unknown h hnew.1)

/-! ## Walks that do not depend on what is kept -/

/-- A walk gives one value whatever closures are kept, as long as they are exact, and leaves them
exact. -/
def Settled (g : Ancestry) (m : Walking α) (a : α) : Prop :=
  ∀ known, g.Exact known → (m.run known).1 = a ∧ g.Exact (m.run known).2

theorem exact_nil (g : Ancestry) : g.Exact [] := fun _ _ h => by cases h

theorem settled_pure (g : Ancestry) (a : α) : g.Settled (pure a) a := fun _ h => ⟨rfl, h⟩

theorem settled_bind {m : Walking α} {f : α → Walking β} {a : α} {b : β} (hm : g.Settled m a)
    (hf : g.Settled (f a) b) : g.Settled (m >>= f) b := by
  intro known hknown
  obtain ⟨hvalue, hexact⟩ := hm known hknown
  have := hf (m.run known).2 hexact
  rw [← hvalue] at this
  exact this

theorem settled_mapM {f : α → Walking β} {value : α → β} (xs : List α)
    (hf : ∀ x ∈ xs, g.Settled (f x) (value x)) : g.Settled (xs.mapM f) (xs.map value) := by
  induction xs with
  | nil => exact g.settled_pure []
  | cons x xs ih =>
    have hrest := ih fun y hy => hf y (List.mem_cons_of_mem _ hy)
    rw [List.mapM_cons]
    exact settled_bind (hf x (by simp)) (settled_bind hrest (g.settled_pure _))

/-- Everything above a resource, worked out with nothing kept. -/
def above (g : Ancestry) (id : Int) : IdSet :=
  g.walkUp [] id (g.parentsOf id) .empty (g.parentsOf_within id)

@[simp] theorem mem_above {id x : Int} : x ∈ g.above id ↔ g.Above id x :=
  mem_walkUp g.exact_nil _ (g.climbing_start id) x

/-- Everything above any of some resources. -/
def aboveAny (g : Ancestry) : List Int → IdSet
  | [] => .empty
  | id :: ids => (g.above id).union (g.aboveAny ids)

@[simp] theorem mem_aboveAny {ids : List Int} {x : Int} :
    x ∈ g.aboveAny ids ↔ ∃ id ∈ ids, g.Above id x := by
  induction ids with
  | nil => simp [aboveAny]
  | cons id ids ih => simp [aboveAny, ih]

theorem settled_ancestors (g : Ancestry) (id : Int) : g.Settled (g.ancestors id) (g.above id) := by
  intro known hknown
  cases hlook : known.lookup id with
  | some above =>
    have hrun : (g.ancestors id).run known = (above, known) := by
      simp only [ancestors, StateT.run_bind, StateT.run_get, pure_bind, hlook]
      rfl
    rw [hrun]
    refine ⟨IdSet.ext_mem fun x => ?_, hknown⟩
    rw [mem_above, hknown id above hlook]
  | none =>
    have hrun : (g.ancestors id).run known =
        let above := g.walkUp known id (g.parentsOf id) .empty (g.parentsOf_within id)
        (above, (id, above) :: known) := by
      simp only [ancestors, StateT.run_bind, StateT.run_get, pure_bind, hlook]
      rfl
    rw [hrun]
    have hmem := mem_walkUp hknown (g.parentsOf_within id) (g.climbing_start id)
    refine ⟨IdSet.ext_mem fun x => ?_, ?_⟩
    · rw [mem_above, hmem]
    · intro other found hfound
      simp only [List.lookup_cons] at hfound
      by_cases heq : other = id
      · subst heq
        simp only [beq_self_eq_true, Option.some.injEq] at hfound
        exact hfound ▸ hmem
      · have hne : (other == id) = false := by simpa using heq
        rw [hne] at hfound
        exact hknown other found hfound

theorem settled_closure (g : Ancestry) (ids : List Int) :
    g.Settled (g.closure ids) (g.aboveAny ids) := by
  induction ids with
  | nil => exact g.settled_pure _
  | cons id ids ih =>
    exact settled_bind (g.settled_ancestors id) (settled_bind ih (g.settled_pure _))

end Ancestry

end FreeTime
