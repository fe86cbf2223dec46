-- The laws of walks through a graph: each level holds the ids at one distance, so the levels
-- together hold all that is reached. One after another they are what a queue lists.
import FreeTime.Reach

namespace FreeTime.Reach

variable {next : Int → List Int}

/-! ## Paths and steps -/

theorem path_trans {a b c : Int} (hab : Path next a b) (hbc : Path next b c) : Path next a c := by
  induction hbc with
  | step h => exact .snoc hab h
  | snoc _ h ih => exact .snoc ih h

theorem path_iff_steps {a b : Int} : Path next a b ↔ ∃ n, Steps next (n + 1) a b := by
  constructor
  · intro h
    induction h with
    | step h => exact ⟨0, .snoc (.here _) h⟩
    | snoc _ h ih =>
      obtain ⟨n, hn⟩ := ih
      exact ⟨n + 1, .snoc hn h⟩
  · rintro ⟨n, h⟩
    induction n generalizing b with
    | zero =>
      obtain _ | ⟨⟨⟩, hb⟩ := h
      exact .step hb
    | succ n ih =>
      obtain _ | ⟨h, hb⟩ := h
      exact .snoc (ih h) hb

/-- A set that holds the neighbours of an id and of its own members holds all that is reached. -/
theorem closed_of_path {a : Int} {P : Int → Prop} (hfirst : ∀ b ∈ next a, P b)
    (hnext : ∀ b, P b → ∀ c ∈ next b, P c) {b : Int} (h : Path next a b) : P b := by
  induction h with
  | step h => exact hfirst _ h
  | snoc _ h ih => exact hnext _ ih _ h

/-- An id is one of some seeds, or is reached from one of them. -/
def Reached (next : Int → List Int) (seeds : List Int) (x : Int) : Prop :=
  ∃ a ∈ seeds, ∃ n, Steps next n a x

/-- Graphs that agree on the neighbours of all that is reached have the same steps. -/
theorem steps_congr {other : Int → List Int} {a : Int}
    (h : ∀ n b, Steps next n a b → ∀ c, c ∈ next b ↔ c ∈ other b) {n : Nat} {b : Int} :
    Steps other n a b ↔ Steps next n a b := by
  constructor
  · intro hb
    induction hb with
    | here => exact .here _
    | snoc _ hc ih => exact .snoc (ih h) ((h _ _ (ih h) _).mpr hc)
  · intro hb
    induction hb with
    | here => exact .here _
    | snoc hb hc ih => exact .snoc (ih h) ((h _ _ hb _).mp hc)

/-! ## Distances -/

/-- An id is reached from some seed in `n` steps, and from none in fewer. -/
def Depth (next : Int → List Int) (seeds : List Int) (n : Nat) (b : Int) : Prop :=
  (∃ a ∈ seeds, Steps next n a b) ∧ ∀ m, ∀ a ∈ seeds, Steps next m a b → n ≤ m

theorem depth_singleton {a b : Int} {n : Nat} : Depth next [a] n b ↔ Distance next n a b := by
  simp [Depth, Distance]

theorem depth_zero {seeds : List Int} {b : Int} : Depth next seeds 0 b ↔ b ∈ seeds := by
  constructor
  · rintro ⟨⟨a, ha, h⟩, _⟩
    cases h
    exact ha
  · exact fun hb => ⟨⟨b, hb, .here b⟩, fun m _ _ _ => Nat.zero_le m⟩

theorem depth_unique {seeds : List Int} {m n : Nat} {b : Int} (hm : Depth next seeds m b)
    (hn : Depth next seeds n b) : m = n := by
  obtain ⟨⟨a, ha, hs⟩, hmin⟩ := hm
  obtain ⟨⟨a', ha', hs'⟩, hmin'⟩ := hn
  have := hmin n a' ha' hs'
  have := hmin' m a ha hs
  omega

/-- What is reached at all is reached at some distance. -/
theorem exists_depth {seeds : List Int} {a b : Int} (ha : a ∈ seeds) {n : Nat}
    (h : Steps next n a b) : ∃ m ≤ n, Depth next seeds m b := by
  induction n using Nat.strongRecOn generalizing a with
  | _ n ih =>
    by_cases hless : ∃ m < n, ∃ a ∈ seeds, Steps next m a b
    · obtain ⟨m, hlt, a', ha', hs⟩ := hless
      obtain ⟨k, hk, hd⟩ := ih m hlt ha' hs
      exact ⟨k, by omega, hd⟩
    · refine ⟨n, Nat.le_refl n, ⟨a, ha, h⟩, ?_⟩
      intro m a' ha' hs
      exact Nat.not_lt.mp fun hlt => hless ⟨m, hlt, a', ha', hs⟩

/-- What is reached by one or more steps, other than the start, is reached at some distance. -/
theorem exists_distance {a b : Int} :
    (∃ n, Distance next (n + 1) a b) ↔ b ≠ a ∧ Path next a b := by
  constructor
  · rintro ⟨n, hs, hmin⟩
    refine ⟨?_, path_iff_steps.mpr ⟨n, hs⟩⟩
    rintro rfl
    have := hmin 0 (.here b)
    omega
  · rintro ⟨hne, hpath⟩
    obtain ⟨n, hs⟩ := path_iff_steps.mp hpath
    obtain ⟨m, _, hd⟩ := exists_depth (List.mem_singleton.mpr rfl : a ∈ [a]) hs
    cases m with
    | zero => exact absurd (List.mem_singleton.mp (depth_zero.mp hd)) hne
    | succ m => exact ⟨m, depth_singleton.mp hd⟩

/-- The last step to an id comes from an id that is one step nearer. -/
theorem depth_pred {seeds : List Int} {n : Nat} {b : Int} (h : Depth next seeds (n + 1) b) :
    ∃ a, Depth next seeds n a ∧ b ∈ next a := by
  obtain ⟨⟨seed, hseed, hs⟩, hmin⟩ := h
  cases hs with
  | snoc hs hb =>
    rename_i a
    refine ⟨a, ⟨⟨seed, hseed, hs⟩, ?_⟩, hb⟩
    intro m seed' hseed' hm
    have := hmin (m + 1) seed' hseed' (.snoc hm hb)
    omega

/-- One step further are the neighbours that are not reached sooner. -/
theorem depth_succ {seeds : List Int} {n : Nat} {b : Int} :
    Depth next seeds (n + 1) b ↔
      (∃ a, Depth next seeds n a ∧ b ∈ next a) ∧ ¬ ∃ m ≤ n, Depth next seeds m b := by
  constructor
  · intro h
    refine ⟨depth_pred h, ?_⟩
    rintro ⟨m, hm, hd⟩
    have := depth_unique h hd
    omega
  · rintro ⟨⟨a, ⟨⟨seed, hseed, hs⟩, _⟩, hb⟩, hnot⟩
    refine ⟨⟨seed, hseed, .snoc hs hb⟩, ?_⟩
    intro m seed' hseed' hm
    obtain ⟨k, hk, hd⟩ := exists_depth hseed' hm
    apply Nat.not_lt.mp
    intro hlt
    exact hnot ⟨k, by omega, hd⟩

/-- Beyond a distance that no id has there is none. -/
theorem no_depth_beyond {seeds : List Int} {n : Nat} (h : ∀ b, ¬ Depth next seeds n b) (k : Nat)
    (b : Int) : ¬ Depth next seeds (n + k) b := by
  induction k generalizing b with
  | zero => exact h b
  | succ k ih =>
    intro hd
    obtain ⟨a, ha, _⟩ := depth_pred hd
    exact ih a ha

/-! ## Levels -/

theorem mem_flatten_iff_getD {lists : List (List Int)} {x : Int} :
    x ∈ lists.flatten ↔ ∃ i, x ∈ lists.getD i [] := by
  simp only [List.mem_flatten, List.getD_eq_getElem?_getD]
  constructor
  · rintro ⟨list, hlist, hx⟩
    obtain ⟨i, hi⟩ := List.mem_iff_getElem?.mp hlist
    exact ⟨i, by rwa [hi]⟩
  · rintro ⟨i, hx⟩
    cases hi : lists[i]? with
    | none =>
      rw [hi] at hx
      cases hx
    | some list =>
      rw [hi] at hx
      exact ⟨list, List.mem_of_getElem? hi, hx⟩

/-- What a walk has seen once it stands at a level: the level is at distance `n` from the seeds,
and all that is seen is no further. -/
structure At (next : Int → List Int) (seeds seen level : List Int) (n : Nat) : Prop where
  level : ∀ x, x ∈ level ↔ Depth next seeds n x
  seen : ∀ x, x ∈ seen ↔ ∃ m ≤ n, Depth next seeds m x

theorem at_start (seeds : List Int) : At next seeds seeds seeds 0 where
  level _ := depth_zero.symm
  seen x := by
    constructor
    · exact fun hx => ⟨0, Nat.le_refl 0, depth_zero.mpr hx⟩
    · rintro ⟨m, hm, hd⟩
      obtain rfl : m = 0 := by omega
      exact depth_zero.mp hd

theorem mem_fresh_iff_depth {seeds seen level : List Int} {n : Nat}
    (h : At next seeds seen level n) (x : Int) :
    x ∈ fresh next seen level ↔ Depth next seeds (n + 1) x := by
  rw [mem_fresh, depth_succ, h.seen]
  simp only [h.level]

theorem le_succ_depth {seeds : List Int} {n : Nat} {x : Int} :
    (∃ m ≤ n + 1, Depth next seeds m x) ↔
      (∃ m ≤ n, Depth next seeds m x) ∨ Depth next seeds (n + 1) x := by
  constructor
  · rintro ⟨m, hm, hd⟩
    by_cases hn : m ≤ n
    · exact Or.inl ⟨m, hn, hd⟩
    · obtain rfl : m = n + 1 := by omega
      exact Or.inr hd
  · rintro (⟨m, hm, hd⟩ | hd)
    · exact ⟨m, by omega, hd⟩
    · exact ⟨n + 1, Nat.le_refl _, hd⟩

theorem at_step {seeds seen level : List Int} {n : Nat} (h : At next seeds seen level n) :
    At next seeds (seen ++ fresh next seen level) (fresh next seen level) (n + 1) where
  level := mem_fresh_iff_depth h
  seen x := by rw [List.mem_append, h.seen, mem_fresh_iff_depth h, le_succ_depth]

/-- Each further level holds the ids one step further from the seeds. -/
theorem mem_levels {pool : List Int} (hw : Within next pool) {seeds seen level : List Int} {n : Nat}
    (h : At next seeds seen level n) (i : Nat) (x : Int) :
    x ∈ (levels next pool hw seen level).getD i [] ↔ Depth next seeds (n + 1 + i) x := by
  fun_induction levels next pool hw seen level generalizing n i with
  | case1 =>
    rename_i above hnil
    -- Nothing stands at the next distance, so nothing stands any further.
    have hnone : ∀ b, ¬ Depth next seeds (n + 1) b := by
      intro b hb
      have := (mem_fresh_iff_depth h b).mpr hb
      rw [show fresh next _ _ = [] from hnil] at this
      cases this
    simpa using no_depth_beyond hnone i x
  | case2 =>
    rename_i above _ ih
    cases i with
    | zero => simpa using mem_fresh_iff_depth h x
    | succ i =>
      rw [List.getD_cons_succ, ih (at_step h) i]
      simp only [Nat.add_assoc, Nat.add_comm 1 i]

/-! ## The order of a walk -/

theorem nodup_append_fresh {seen level : List Int} (h : seen.Nodup) :
    (seen ++ fresh next seen level).Nodup := by
  refine List.nodup_append.mpr ⟨h, distinct_nodup _, ?_⟩
  rintro a ha _ hb rfl
  exact (mem_fresh.mp hb).2 ha

/-- No id stands in two levels or twice in one, and none that was seen before stands in any. -/
theorem nodup_append_levels {pool : List Int} (hw : Within next pool) {seen level : List Int}
    (h : seen.Nodup) : (seen ++ (levels next pool hw seen level).flatten).Nodup := by
  fun_induction levels next pool hw seen level with
  | case1 => simpa using h
  | case2 =>
    rename_i above _ ih
    rw [List.flatten_cons, ← List.append_assoc]
    exact ih (nodup_append_fresh h)

/-- From one level to the next the ids are no nearer to the seeds. -/
theorem levels_pairwise_le {pool : List Int} (hw : Within next pool)
    {seeds seen level : List Int} {n : Nat} (h : At next seeds seen level n) :
    (levels next pool hw seen level).flatten.Pairwise fun a b =>
      ∃ i j, i ≤ j ∧ Depth next seeds i a ∧ Depth next seeds j b := by
  fun_induction levels next pool hw seen level generalizing n with
  | case1 => exact List.Pairwise.nil
  | case2 =>
    rename_i above _ ih
    have hlevel : ∀ a ∈ above, Depth next seeds (n + 1) a := fun a => (mem_fresh_iff_depth h a).mp
    rw [List.flatten_cons, List.pairwise_append]
    refine ⟨?_, ih (at_step h), ?_⟩
    · refine List.pairwise_of_forall_mem_list fun a ha b hb => ?_
      exact ⟨n + 1, n + 1, Nat.le_refl _, hlevel a ha, hlevel b hb⟩
    · intro a ha b hb
      obtain ⟨i, hi⟩ := mem_flatten_iff_getD.mp hb
      have hd := (mem_levels _ (at_step h) i b).mp hi
      exact ⟨n + 1, n + 1 + 1 + i, by omega, hlevel a ha, hd⟩

/-! ## The walk with a queue -/

/-- A walk with a queue comes to an end and lists what it meets. The first id leaves the queue, and
its neighbours that were not seen before are seen, listed and join the queue at its end. -/
inductive Drains (next : Int → List Int) : List Int → List Int → List Int → Prop
  | done (seen : List Int) : Drains next seen [] []
  | take {seen queue listed : List Int} {a : Int} :
      Drains next (seen ++ fresh next seen [a]) (queue ++ fresh next seen [a]) listed →
        Drains next seen (a :: queue) (fresh next seen [a] ++ listed)

theorem distinct_filter (p : Int → Bool) (ids : List Int) :
    (distinct ids).filter p = distinct (ids.filter p) := by
  induction ids with
  | nil => rfl
  | cons id ids ih =>
    by_cases hp : p id = true
    · rw [List.filter_cons_of_pos hp, distinct, distinct, List.filter_cons_of_pos hp, ← ih,
        List.filter_filter, List.filter_filter]
      simp only [Bool.and_comm]
    · rw [List.filter_cons_of_neg hp, distinct, List.filter_cons_of_neg hp, ← ih,
        List.filter_filter]
      apply List.filter_congr
      intro x _
      by_cases hx : x = id
      · subst hx
        simp [hp]
      · simp [hx]

theorem distinct_append (ids more : List Int) :
    distinct (ids ++ more) = distinct ids ++ distinct (more.filter fun x => !ids.contains x) := by
  induction ids with
  | nil =>
    have hall : (more.filter fun x => !([] : List Int).contains x) = more :=
      List.filter_eq_self.mpr fun _ _ => rfl
    rw [hall]
    rfl
  | cons id ids ih =>
    rw [List.cons_append, distinct, distinct, ih, List.filter_append,
      distinct_filter (· != id) (more.filter _), List.filter_filter, List.cons_append]
    simp only [List.contains_cons, Bool.not_or, bne]

/-- A level may be taken in two parts, the second one after what the first has met. -/
theorem fresh_append (seen level more : List Int) :
    fresh next seen (level ++ more) =
      fresh next seen level ++ fresh next (seen ++ fresh next seen level) more := by
  unfold fresh
  rw [List.flatMap_append, List.filter_append, distinct_append, List.filter_filter]
  congr 2
  apply List.filter_congr
  intro x _
  by_cases hx : x ∈ seen
  · simp [hx]
  · simp [hx]

/-- A queue is worked off level by level: what a level meets is listed, and it queues up behind what
else was waiting. -/
theorem Drains.level {seen level waiting listed : List Int}
    (h : Drains next (seen ++ fresh next seen level) (waiting ++ fresh next seen level) listed) :
    Drains next seen (level ++ waiting) (fresh next seen level ++ listed) := by
  induction level generalizing seen waiting with
  | nil => simpa [fresh, distinct] using h
  | cons a level ih =>
    have hsplit : fresh next seen (a :: level) =
        fresh next seen [a] ++ fresh next (seen ++ fresh next seen [a]) level :=
      fresh_append seen [a] level
    rw [hsplit] at h ⊢
    rw [List.cons_append, List.append_assoc]
    apply Drains.take
    rw [List.append_assoc]
    apply ih
    rwa [List.append_assoc, List.append_assoc]

/-- The walk with a queue lists the levels, one after another. -/
theorem drains_levels {pool : List Int} (hw : Within next pool) (seen level : List Int) :
    Drains next seen level (levels next pool hw seen level).flatten := by
  fun_induction levels next pool hw seen level with
  | case1 seen level above hnil =>
    have hfresh : fresh next seen level = [] := hnil
    have hdone : Drains next (seen ++ fresh next seen level) ([] ++ fresh next seen level) [] := by
      rw [hfresh]
      exact .done _
    have hlevel := hdone.level
    rwa [hfresh, List.append_nil] at hlevel
  | case2 seen level above _ ih =>
    rw [List.flatten_cons]
    have hlevel : Drains next seen (level ++ []) _ := Drains.level ih
    rwa [List.append_nil] at hlevel

end FreeTime.Reach
