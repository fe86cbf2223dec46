-- Sets of ids. Resources, resource types, properties, relation types, rules and events all
-- have whole numbers as ids. A set is kept as its members in ascending order, each once, so
-- two sets with the same members are the same value.

namespace FreeTime

/-- The list with every id at its first place only. -/
def distinct : List Int → List Int
  | [] => []
  | id :: ids => id :: (distinct ids).filter (· != id)

/-- A finite set of ids. -/
@[ext] structure IdSet where
  toList : List Int
  ascending : toList.Pairwise (· < ·)
deriving DecidableEq

namespace IdSet

/-- Put an id into its place of an ascending list; an id that is there already stays once. -/
def place (id : Int) : List Int → List Int
  | [] => [id]
  | x :: xs =>
    if id < x then id :: x :: xs
    else if id = x then x :: xs
    else x :: place id xs

theorem mem_place (id y : Int) (xs : List Int) : y ∈ place id xs ↔ y = id ∨ y ∈ xs := by
  induction xs with
  | nil => simp [place]
  | cons x xs ih =>
    simp only [place]
    split
    · simp
    · split
      · rename_i h
        subst h
        simp
      · simp only [List.mem_cons, ih]
        constructor
        · rintro (h | h | h)
          · exact Or.inr (Or.inl h)
          · exact Or.inl h
          · exact Or.inr (Or.inr h)
        · rintro (h | h | h)
          · exact Or.inr (Or.inl h)
          · exact Or.inl h
          · exact Or.inr (Or.inr h)

theorem place_ascending (id : Int) {xs : List Int} (h : xs.Pairwise (· < ·)) :
    (place id xs).Pairwise (· < ·) := by
  induction xs with
  | nil => simp [place]
  | cons x xs ih =>
    have hx : ∀ y ∈ xs, x < y := fun _ hy => List.rel_of_pairwise_cons h hy
    simp only [place]
    split
    · rename_i hlt
      refine List.pairwise_cons.mpr ⟨?_, h⟩
      intro y hy
      rcases List.mem_cons.mp hy with rfl | hy
      · exact hlt
      · exact Int.lt_trans hlt (hx y hy)
    · split
      · exact h
      · refine List.pairwise_cons.mpr ⟨?_, ih h.of_cons⟩
        intro y hy
        rcases (mem_place id y xs).mp hy with rfl | hy
        · omega
        · exact hx y hy

def empty : IdSet := ⟨[], List.Pairwise.nil⟩

def insert (id : Int) (s : IdSet) : IdSet := ⟨place id s.toList, place_ascending id s.ascending⟩

/-- The members of a list. -/
def ofList (ids : List Int) : IdSet := ids.foldr insert empty

def singleton (id : Int) : IdSet := insert id empty

def union (a b : IdSet) : IdSet := a.toList.foldr insert b

def filter (keep : Int → Bool) (s : IdSet) : IdSet :=
  ⟨s.toList.filter keep, s.ascending.filter _⟩

def contains (s : IdSet) (id : Int) : Bool := s.toList.contains id

instance : Membership Int IdSet := ⟨fun s id => id ∈ s.toList⟩

instance (id : Int) (s : IdSet) : Decidable (id ∈ s) := inferInstanceAs (Decidable (id ∈ s.toList))

def inter (a b : IdSet) : IdSet := a.filter b.contains

def isEmpty (s : IdSet) : Bool := s.toList.isEmpty

theorem mem_def {id : Int} {s : IdSet} : id ∈ s ↔ id ∈ s.toList := Iff.rfl

@[simp] theorem contains_iff {id : Int} {s : IdSet} : s.contains id = true ↔ id ∈ s := by
  simp [contains, mem_def]

@[simp] theorem not_mem_empty {id : Int} : ¬ id ∈ empty := by simp [mem_def, empty]

@[simp] theorem mem_insert {id x : Int} {s : IdSet} : x ∈ insert id s ↔ x = id ∨ x ∈ s :=
  mem_place id x s.toList

@[simp] theorem mem_ofList {x : Int} {ids : List Int} : x ∈ ofList ids ↔ x ∈ ids := by
  induction ids with
  | nil => simp [ofList]
  | cons id ids ih =>
    simp only [ofList, List.foldr_cons, mem_insert, List.mem_cons] at ih ⊢
    rw [ih]

@[simp] theorem mem_singleton {id x : Int} : x ∈ singleton id ↔ x = id := by simp [singleton]

@[simp] theorem mem_union {x : Int} {a b : IdSet} : x ∈ union a b ↔ x ∈ a ∨ x ∈ b := by
  have : ∀ ids : List Int, x ∈ ids.foldr insert b ↔ x ∈ ids ∨ x ∈ b := by
    intro ids
    induction ids with
    | nil => simp
    | cons id ids ih => simp [ih, or_assoc]
  exact this a.toList

@[simp] theorem mem_filter {x : Int} {keep : Int → Bool} {s : IdSet} :
    x ∈ s.filter keep ↔ x ∈ s ∧ keep x = true := by
  simp [mem_def, filter]

@[simp] theorem mem_inter {x : Int} {a b : IdSet} : x ∈ inter a b ↔ x ∈ a ∧ x ∈ b := by
  simp [inter]

theorem ext_mem {a b : IdSet} (h : ∀ x, x ∈ a ↔ x ∈ b) : a = b := by
  apply IdSet.ext
  have key : ∀ xs ys : List Int, xs.Pairwise (· < ·) → ys.Pairwise (· < ·) →
      (∀ x, x ∈ xs ↔ x ∈ ys) → xs = ys := by
    intro xs
    induction xs with
    | nil =>
      intro ys _ _ hm
      cases ys with
      | nil => rfl
      | cons y ys => exact absurd ((hm y).mpr (by simp)) (by simp)
    | cons x xs ih =>
      intro ys hx hy hm
      cases ys with
      | nil => exact absurd ((hm x).mp (by simp)) (by simp)
      | cons y ys =>
        have hxy : x = y := by
          have h1 := (hm x).mp (by simp)
          have h2 := (hm y).mpr (by simp)
          rcases List.mem_cons.mp h1 with h1 | h1
          · exact h1
          · rcases List.mem_cons.mp h2 with h2 | h2
            · exact h2.symm
            · have := List.rel_of_pairwise_cons hx h2
              have := List.rel_of_pairwise_cons hy h1
              omega
        subst hxy
        congr 1
        apply ih ys hx.of_cons hy.of_cons
        intro z
        constructor
        · intro hz
          have := List.rel_of_pairwise_cons hx hz
          rcases List.mem_cons.mp ((hm z).mp (List.mem_cons_of_mem _ hz)) with h3 | h3
          · omega
          · exact h3
        · intro hz
          have := List.rel_of_pairwise_cons hy hz
          rcases List.mem_cons.mp ((hm z).mpr (List.mem_cons_of_mem _ hz)) with h3 | h3
          · omega
          · exact h3
  exact key _ _ a.ascending b.ascending h

end IdSet

/-- An id stands in the list without repeats iff it stands in the list. -/
@[simp] theorem mem_distinct {x : Int} {ids : List Int} : x ∈ distinct ids ↔ x ∈ ids := by
  induction ids with
  | nil => simp [distinct]
  | cons id ids ih =>
    simp only [distinct, List.mem_cons, List.mem_filter, ih, bne_iff_ne, ne_eq]
    constructor
    · rintro (h | h)
      · exact Or.inl h
      · exact Or.inr h.1
    · rintro (h | h)
      · exact Or.inl h
      · by_cases hx : x = id
        · exact Or.inl hx
        · exact Or.inr ⟨h, hx⟩

theorem distinct_nodup (ids : List Int) : (distinct ids).Nodup := by
  induction ids with
  | nil => simp [distinct]
  | cons id ids ih =>
    simp only [distinct, List.nodup_cons, List.mem_filter, bne_iff_ne, ne_eq]
    exact ⟨by simp, ih.filter _⟩

end FreeTime
