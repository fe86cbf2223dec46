-- Walking a graph of ids level by level. The graph is given by the neighbours of each id; all
-- neighbours come from one finite list, so a walk that visits no id twice comes to an end.
import FreeTime.IdSet

namespace FreeTime.Reach

/-- `Within next pool` says that every neighbour stands in the list `pool`. -/
def Within (next : Int → List Int) (pool : List Int) : Prop := ∀ a, ∀ b ∈ next a, b ∈ pool

/-- How many entries of the pool are not seen yet. -/
def unseen (pool seen : List Int) : Nat := pool.countP fun x => !seen.contains x

/-- Seeing more never leaves more unseen. -/
theorem unseen_le {pool seen seen' : List Int} (h : ∀ x ∈ seen, x ∈ seen') :
    unseen pool seen' ≤ unseen pool seen := by
  unfold unseen
  apply List.countP_mono_left
  intro x _ hx
  simp only [Bool.not_eq_true', List.contains_eq_mem, decide_eq_false_iff_not] at hx ⊢
  exact fun hs => hx (h x hs)

/-- Seeing an entry of the pool for the first time leaves fewer unseen. -/
theorem unseen_lt {pool seen seen' : List Int} (h : ∀ x ∈ seen, x ∈ seen') {a : Int}
    (ha : a ∈ pool) (hs : a ∉ seen) (hs' : a ∈ seen') : unseen pool seen' < unseen pool seen := by
  induction pool with
  | nil => cases ha
  | cons x pool ih =>
    have hle : unseen pool seen' ≤ unseen pool seen := unseen_le h
    unfold unseen at hle ih ⊢
    rw [List.countP_cons, List.countP_cons]
    by_cases hx : x = a
    · subst hx
      have h1 : (!seen'.contains x) = false := by simp [hs']
      have h2 : (!seen.contains x) = true := by simp [hs]
      rw [h1, h2]
      simp only [Bool.false_eq_true, if_false, if_true]
      omega
    · have ha' : a ∈ pool := by
        rcases List.mem_cons.mp ha with h1 | h1
        · exact absurd h1.symm hx
        · exact h1
      have hlt := ih ha'
      have himp : (!seen'.contains x) = true → (!seen.contains x) = true := by
        simp only [Bool.not_eq_true', List.contains_eq_mem, decide_eq_false_iff_not]
        exact fun hn hm => hn (h x hm)
      by_cases h1 : (!seen'.contains x) = true
      · rw [if_pos h1, if_pos (himp h1)]
        omega
      · rw [if_neg h1]
        omega

/-- The neighbours of a level that were not seen before, in the order they are met. -/
def fresh (next : Int → List Int) (seen level : List Int) : List Int :=
  distinct ((level.flatMap next).filter fun x => !seen.contains x)

theorem mem_fresh {next : Int → List Int} {seen level : List Int} {x : Int} :
    x ∈ fresh next seen level ↔ (∃ a ∈ level, x ∈ next a) ∧ x ∉ seen := by
  simp [fresh, List.mem_flatMap]

/-- The levels above a level, nearest first. An id stands in the first level that reaches it;
the ids that count as seen at the start stand in none. -/
def levels (next : Int → List Int) (pool : List Int) (h : Within next pool)
    (seen level : List Int) : List (List Int) :=
  let above := fresh next seen level
  if _hne : above = [] then []
  else above :: levels next pool h (seen ++ above) above
termination_by unseen pool seen
decreasing_by
  obtain ⟨a, ha⟩ := List.exists_mem_of_ne_nil _ _hne
  obtain ⟨⟨b, _, hb⟩, hs⟩ := mem_fresh.mp ha
  refine unseen_lt ?_ (h b a hb) hs ?_
  · intro x hx
    exact List.mem_append_left _ hx
  · exact List.mem_append_right _ ha

/-- An id is reached from another one in a number of steps. -/
inductive Steps (next : Int → List Int) : Nat → Int → Int → Prop
  | here (a : Int) : Steps next 0 a a
  | snoc {n : Nat} {a b c : Int} : Steps next n a b → c ∈ next b → Steps next (n + 1) a c

/-- An id is reached from another one, and not in fewer steps than `n`. -/
def Distance (next : Int → List Int) (n : Nat) (a b : Int) : Prop :=
  Steps next n a b ∧ ∀ m, Steps next m a b → n ≤ m

/-- An id is reached from another one by one or more steps. -/
inductive Path (next : Int → List Int) : Int → Int → Prop
  | step {a b : Int} : b ∈ next a → Path next a b
  | snoc {a b c : Int} : Path next a b → c ∈ next b → Path next a c

end FreeTime.Reach
