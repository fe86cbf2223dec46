-- The laws of the sweep over bookings: the spans it gives are those in which at least as many
-- bookings run as the capacity allows.
import FreeTime.Occupancy
import FreeTime.Proofs.Spans
import Mathlib

namespace FreeTime

/-! ## Changes of the occupancy -/

/-- The changes up to an instant, and at it, added up. -/
def changeUpTo (changes : List (Int × Int)) (t : Int) : Int :=
  (changes.map fun c => if c.1 ≤ t then c.2 else 0).sum

/-- All the changes added up. -/
def totalChange (changes : List (Int × Int)) : Int := (changes.map Prod.snd).sum

/-- Each change stands at a later instant than the one before. -/
def AscendingChanges (changes : List (Int × Int)) : Prop := changes.Pairwise fun a b => a.1 < b.1

@[simp] theorem changeUpTo_nil (t : Int) : changeUpTo [] t = 0 := rfl

@[simp] theorem changeUpTo_cons (c : Int × Int) (changes : List (Int × Int)) (t : Int) :
    changeUpTo (c :: changes) t = (if c.1 ≤ t then c.2 else 0) + changeUpTo changes t := by
  simp [changeUpTo]

@[simp] theorem totalChange_nil : totalChange [] = 0 := rfl

@[simp] theorem totalChange_cons (c : Int × Int) (changes : List (Int × Int)) :
    totalChange (c :: changes) = c.2 + totalChange changes := by
  simp [totalChange]

/-- The first of ascending changes stands at no later instant than any of them. -/
theorem first_le_of_ascending {c : Int × Int} {changes : List (Int × Int)}
    (h : AscendingChanges (c :: changes)) : ∀ x ∈ c :: changes, c.1 ≤ x.1 := by
  intro x hx
  rcases List.mem_cons.mp hx with rfl | hx
  · exact Int.le_refl _
  · exact Int.le_of_lt (List.rel_of_pairwise_cons h hx)

theorem changeUpTo_perm {a b : List (Int × Int)} (h : a.Perm b) (t : Int) :
    changeUpTo a t = changeUpTo b t := (h.map _).sum_eq

theorem totalChange_perm {a b : List (Int × Int)} (h : a.Perm b) :
    totalChange a = totalChange b := (h.map _).sum_eq

/-- Before the first change nothing has changed. -/
theorem changeUpTo_eq_zero {changes : List (Int × Int)} {t : Int} (h : ∀ c ∈ changes, t < c.1) :
    changeUpTo changes t = 0 := by
  induction changes with
  | nil => rfl
  | cons c changes ih =>
    have := h c (by simp)
    rw [changeUpTo_cons, ih fun x hx => h x (List.mem_cons_of_mem _ hx), if_neg (by omega)]
    rfl

/-- The changes up to an instant come to the number of bookings that cover it. -/
theorem changeUpTo_edges {busy : List Span} (h : AllProper busy) (t : Int) :
    changeUpTo (edges busy) t = occupancyAt busy t := by
  induction busy with
  | nil => rfl
  | cons s busy ih =>
    have hs : s.start < s.stop := h s (by simp)
    have ih := ih fun x hx => h x (List.mem_cons_of_mem _ hx)
    simp only [edges, List.flatMap_cons, List.cons_append, List.nil_append, changeUpTo_cons,
      occupancyAt, List.countP_cons, decide_eq_true_eq] at ih ⊢
    rw [ih]
    have hcovers : s.Covers t ↔ s.start ≤ t ∧ t < s.stop := Iff.rfl
    simp only [hcovers]
    split <;> split <;> split <;> omega

theorem totalChange_edges (busy : List Span) : totalChange (edges busy) = 0 := by
  induction busy with
  | nil => rfl
  | cons s busy ih =>
    simp only [edges, List.flatMap_cons, List.cons_append, List.nil_append,
      totalChange_cons] at ih ⊢
    omega

/-! ## Folding equal instants -/

theorem changeUpTo_foldEdges (changes : List (Int × Int)) (t : Int) :
    changeUpTo (foldEdges changes) t = changeUpTo changes t := by
  induction changes with
  | nil => rfl
  | cons c changes ih =>
    simp only [foldEdges]
    split
    · rename_i hnil
      rw [hnil] at ih
      rw [changeUpTo_cons, changeUpTo_cons, ih]
    · rename_i u e more hcons
      rw [hcons, changeUpTo_cons] at ih
      split
      · rename_i htu
        rw [changeUpTo_cons, changeUpTo_cons, ← ih, htu]
        simp only
        split <;> omega
      · rw [changeUpTo_cons, changeUpTo_cons, changeUpTo_cons, ← ih]

theorem totalChange_foldEdges (changes : List (Int × Int)) :
    totalChange (foldEdges changes) = totalChange changes := by
  induction changes with
  | nil => rfl
  | cons c changes ih =>
    simp only [foldEdges]
    split
    · rename_i hnil
      rw [hnil] at ih
      rw [totalChange_cons, totalChange_cons, ih]
    · rename_i u e more hcons
      rw [hcons, totalChange_cons] at ih
      split
      · rw [totalChange_cons, totalChange_cons, ← ih]
        simp only
        omega
      · rw [totalChange_cons, totalChange_cons, totalChange_cons, ← ih]

theorem mem_foldEdges {changes : List (Int × Int)} {c : Int × Int} (h : c ∈ foldEdges changes) :
    ∃ e ∈ changes, e.1 = c.1 := by
  induction changes generalizing c with
  | nil => cases h
  | cons first changes ih =>
    simp only [foldEdges] at h
    split at h
    · rcases List.mem_singleton.mp h with rfl
      exact ⟨first, by simp, rfl⟩
    · rename_i u e more hcons
      rw [hcons] at ih
      split at h
      · rcases List.mem_cons.mp h with rfl | h
        · exact ⟨first, by simp, rfl⟩
        · obtain ⟨x, hx, heq⟩ := ih (List.mem_cons_of_mem _ h)
          exact ⟨x, List.mem_cons_of_mem _ hx, heq⟩
      · rcases List.mem_cons.mp h with rfl | h
        · exact ⟨first, by simp, rfl⟩
        · obtain ⟨x, hx, heq⟩ := ih h
          exact ⟨x, List.mem_cons_of_mem _ hx, heq⟩

/-- Changes in order, with those of one instant added up, stand at later and later instants. -/
theorem foldEdges_ascending {changes : List (Int × Int)}
    (h : changes.Pairwise fun a b => a.1 ≤ b.1) : AscendingChanges (foldEdges changes) := by
  induction changes with
  | nil => exact List.Pairwise.nil
  | cons first changes ih =>
    obtain ⟨hfirst, hrest⟩ := List.pairwise_cons.mp h
    have ih := ih hrest
    have hle : ∀ c ∈ foldEdges changes, first.1 ≤ c.1 := by
      intro c hc
      obtain ⟨e, he, heq⟩ := mem_foldEdges hc
      exact heq ▸ hfirst e he
    simp only [foldEdges]
    split
    · exact List.pairwise_singleton _ _
    · rename_i u e more hcons
      rw [hcons] at ih hle
      obtain ⟨hmore, hpair⟩ := List.pairwise_cons.mp ih
      split
      · rename_i htu
        exact List.pairwise_cons.mpr ⟨fun c hc => htu ▸ hmore c hc, hpair⟩
      · rename_i hne
        refine List.pairwise_cons.mpr ⟨?_, ih⟩
        intro c hc
        have h1 := hle (u, e) (by simp)
        simp only at h1 hne ⊢
        rcases List.mem_cons.mp hc with rfl | hc
        · simp only
          omega
        · have := hmore c hc
          simp only at this
          omega

theorem changes_ascending (busy : List Span) : AscendingChanges (changes busy) := by
  refine foldEdges_ascending ?_
  have h : ((edges busy).mergeSort fun a b => a.1 ≤ b.1).Pairwise
      fun a b => decide (a.1 ≤ b.1) = true :=
    List.pairwise_mergeSort
      (fun a b c hab hbc => by simp only [decide_eq_true_eq] at *; omega)
      (fun a b => by simp only [Bool.or_eq_true, decide_eq_true_eq]; omega) _
  exact h.imp fun hab => of_decide_eq_true hab

theorem changeUpTo_changes {busy : List Span} (h : AllProper busy) (t : Int) :
    changeUpTo (changes busy) t = occupancyAt busy t := by
  rw [changes, changeUpTo_foldEdges, changeUpTo_perm (List.mergeSort_perm _ _), changeUpTo_edges h]

theorem totalChange_changes (busy : List Span) : totalChange (changes busy) = 0 := by
  rw [changes, totalChange_foldEdges, totalChange_perm (List.mergeSort_perm _ _),
    totalChange_edges]

/-! ## The sweep -/

theorem joinFront_proper {s : Span} {later : List Span} (hs : s.Proper) (h : AllProper later) :
    AllProper (joinFront s later) := by
  cases later with
  | nil =>
    intro x hx
    rcases List.mem_singleton.mp hx with rfl
    exact hs
  | cons n rest =>
    have hn : n.Proper := h n (by simp)
    simp only [joinFront]
    split
    · intro x hx
      rcases List.mem_cons.mp hx with rfl | hx
      · simp only [Span.Proper] at *
        omega
      · exact h x (List.mem_cons_of_mem _ hx)
    · intro x hx
      rcases List.mem_cons.mp hx with rfl | hx
      · exact hs
      · exact h x hx

theorem coveredBy_joinFront {s : Span} {later : List Span} (hs : s.Proper) (h : AllProper later)
    (t : Int) : CoveredBy (joinFront s later) t ↔ s.Covers t ∨ CoveredBy later t := by
  cases later with
  | nil => simp [joinFront]
  | cons n rest =>
    have hn : n.Proper := h n (by simp)
    simp only [joinFront]
    split
    · rename_i hmeet
      have hboth : Span.Covers ⟨s.start, n.stop⟩ t ↔ s.Covers t ∨ n.Covers t := by
        simp only [Span.Covers, Span.Proper] at *
        omega
      rw [coveredBy_cons, coveredBy_cons, hboth, or_assoc]
    · rw [coveredBy_cons]

theorem mem_joinFront {s x : Span} {later : List Span} (h : x ∈ joinFront s later) :
    x.start = s.start ∨ x ∈ later := by
  cases later with
  | nil =>
    rcases List.mem_singleton.mp h with rfl
    exact Or.inl rfl
  | cons n rest =>
    simp only [joinFront] at h
    split at h
    · rcases List.mem_cons.mp h with rfl | h
      · exact Or.inl rfl
      · exact Or.inr (List.mem_cons_of_mem _ h)
    · rcases List.mem_cons.mp h with rfl | h
      · exact Or.inl rfl
      · exact Or.inr h

/-- A span that touches the first of the later ones is joined to it, so there is a gap behind it in
any case. -/
theorem joinFront_apart {s : Span} {later : List Span} (hp : AllProper later) (ha : Apart later)
    (hle : ∀ x ∈ later, s.stop ≤ x.start) : Apart (joinFront s later) := by
  cases later with
  | nil => exact List.pairwise_singleton _ _
  | cons n rest =>
    obtain ⟨hn, hrest⟩ := List.pairwise_cons.mp ha
    simp only [joinFront]
    split
    · exact List.pairwise_cons.mpr ⟨hn, hrest⟩
    · rename_i hgap
      refine List.pairwise_cons.mpr ⟨?_, ha⟩
      intro x hx
      have h1 := hle n (by simp)
      rcases List.mem_cons.mp hx with rfl | hx
      · omega
      · have h2 : n.start < n.stop := hp n (by simp)
        have h3 := hn x hx
        omega

theorem saturated_proper (capacity level : Int) (changes : List (Int × Int))
    (h : AscendingChanges changes) : AllProper (saturated capacity level changes) := by
  fun_induction saturated capacity level changes with
  | case1 level t d u e rest later _ ih =>
    have htu : t < u := List.rel_of_pairwise_cons h (List.mem_cons_self)
    exact joinFront_proper htu (ih h.of_cons)
  | case2 level t d u e rest later _ ih => exact ih h.of_cons
  | case3 => intro s hs; cases hs

/-- No span of a sweep starts before its first change. -/
theorem le_start_of_mem_saturated {capacity level first : Int} {changes : List (Int × Int)}
    (h : ∀ c ∈ changes, first ≤ c.1) : ∀ s ∈ saturated capacity level changes, first ≤ s.start := by
  fun_induction saturated capacity level changes with
  | case1 level t d u e rest later _ ih =>
    intro s hs
    rcases mem_joinFront hs with hstart | hs
    · rw [hstart]
      exact h (t, d) (by simp)
    · exact ih (fun c hc => h c (List.mem_cons_of_mem _ hc)) s hs
  | case2 level t d u e rest later _ ih => exact ih fun c hc => h c (List.mem_cons_of_mem _ hc)
  | case3 => intro s hs; cases hs

theorem saturated_apart (capacity level : Int) (changes : List (Int × Int))
    (h : AscendingChanges changes) : Apart (saturated capacity level changes) := by
  fun_induction saturated capacity level changes with
  | case1 level t d u e rest later _ ih =>
    exact joinFront_apart (saturated_proper _ _ _ h.of_cons) (ih h.of_cons)
      (le_start_of_mem_saturated (first_le_of_ascending h.of_cons))
  | case2 level t d u e rest later _ ih => exact ih h.of_cons
  | case3 => exact List.Pairwise.nil

/-- A sweep that ends below the capacity covers the instants, from the first change on, at
which the level is at least the capacity. -/
theorem coveredBy_saturated (capacity level : Int) (changes : List (Int × Int))
    (h : AscendingChanges changes) (hend : level + totalChange changes < capacity) (t : Int) :
    CoveredBy (saturated capacity level changes) t ↔
      (∃ c ∈ changes, c.1 ≤ t) ∧ capacity ≤ level + changeUpTo changes t := by
  induction changes generalizing level with
  | nil => simp [saturated]
  | cons c rest ih =>
    obtain ⟨t₀, d⟩ := c
    cases rest with
    | nil =>
      rw [totalChange_cons, totalChange_nil] at hend
      simp only [saturated, not_coveredBy_nil, List.mem_singleton, exists_eq_left,
        changeUpTo_cons, changeUpTo_nil, false_iff, not_and]
      intro ht
      rw [if_pos ht]
      omega
    | cons next rest =>
      obtain ⟨u, e⟩ := next
      have htu : t₀ < u := List.rel_of_pairwise_cons h (List.mem_cons_self)
      have hlater : ∀ c ∈ (u, e) :: rest, u ≤ c.1 := first_le_of_ascending h.of_cons
      have hend' : level + d + totalChange ((u, e) :: rest) < capacity := by
        rw [totalChange_cons] at hend
        simpa only [Int.add_assoc] using hend
      have ih := ih (level + d) h.of_cons hend'
      have hcover : CoveredBy (saturated capacity level ((t₀, d) :: (u, e) :: rest)) t ↔
          (capacity ≤ level + d ∧ t₀ ≤ t ∧ t < u) ∨
            CoveredBy (saturated capacity (level + d) ((u, e) :: rest)) t := by
        simp only [saturated]
        split
        · rw [coveredBy_joinFront (s := ⟨t₀, u⟩) htu (saturated_proper _ _ _ h.of_cons)]
          simp only [Span.Covers, *, true_and]
        · simp only [*, false_and, false_or]
      have hsome : (∃ c ∈ (u, e) :: rest, c.1 ≤ t) ↔ u ≤ t :=
        ⟨fun ⟨c, hc, hct⟩ => Int.le_trans (hlater c hc) hct, fun ht => ⟨(u, e), by simp, ht⟩⟩
      have hfirst : (∃ c ∈ (t₀, d) :: (u, e) :: rest, c.1 ≤ t) ↔ t₀ ≤ t := by
        constructor
        · rintro ⟨c, hc, hct⟩
          rcases List.mem_cons.mp hc with rfl | hc
          · exact hct
          · have := hlater c hc
            omega
        · exact fun ht => ⟨(t₀, d), List.mem_cons_self, ht⟩
      rw [hcover, ih, hsome, hfirst, changeUpTo_cons (t₀, d)]
      by_cases hu : u ≤ t
      · rw [if_pos (by simp only; omega)]
        simp only
        omega
      · rw [changeUpTo_eq_zero fun c hc => by have := hlater c hc; omega]
        by_cases ht : t₀ ≤ t
        · rw [if_pos ht]
          simp only
          omega
        · omega

/-- Swept from an empty start, the changes of the occupancy cover the instants at which it is at
least the capacity. -/
theorem coveredBy_sweep {busy : List Span} (h : AllProper busy) {capacity : Int}
    (hpos : 0 < capacity) (t : Int) :
    CoveredBy (saturated capacity 0 (changes busy)) t ↔ capacity ≤ occupancyAt busy t := by
  have hend : 0 + totalChange (changes busy) < capacity := by
    rw [totalChange_changes]
    omega
  rw [coveredBy_saturated _ _ _ (changes_ascending busy) hend, changeUpTo_changes h]
  constructor
  · rintro ⟨_, hle⟩
    omega
  · intro hle
    refine ⟨?_, by omega⟩
    -- Before the first change no booking runs.
    apply Decidable.byContradiction
    intro hnone
    have hzero : changeUpTo (changes busy) t = 0 :=
      changeUpTo_eq_zero fun c hc => Int.not_le.mp fun hct => hnone ⟨c, hc, hct⟩
    rw [changeUpTo_changes h] at hzero
    omega

theorem one_le_occupancyAt {busy : List Span} {t : Int} :
    1 ≤ occupancyAt busy t ↔ CoveredBy busy t := by
  simp [CoveredBy, occupancyAt, List.countP_pos_iff, Nat.succ_le_iff]

/-- Merging bookings gives what the sweep gives for a capacity of one. -/
theorem coalesce_eq_sweep {busy : List Span} (h : AllProper busy) :
    Span.coalesce busy = saturated 1 0 (changes busy) := by
  have hascending := changes_ascending busy
  apply eq_of_same_cover (Span.coalesce_proper h) (saturated_proper _ _ _ hascending)
    (Span.coalesce_apart busy) (saturated_apart _ _ _ hascending)
  intro t
  rw [Span.coveredBy_coalesce, coveredBy_sweep h (by omega), ← one_le_occupancyAt]
  omega

/-- Every capacity is answered as by the sweep. -/
theorem blockingSpans_eq {busy : List Span} (h : AllProper busy) (capacity : Nat) :
    blockingSpans busy capacity = saturated (max 1 capacity : Nat) 0 (changes busy) := by
  unfold blockingSpans
  split
  · rename_i hcap
    rw [coalesce_eq_sweep h, Nat.max_eq_left hcap]
    rfl
  · rename_i hcap
    rw [Nat.max_eq_right (by omega)]

/-- A resource is blocked where as many bookings run as it can take. -/
theorem coveredBy_blockingSpans {busy : List Span} (h : AllProper busy) (capacity : Nat) (t : Int) :
    CoveredBy (blockingSpans busy capacity) t ↔ max 1 capacity ≤ occupancyAt busy t := by
  rw [blockingSpans_eq h, coveredBy_sweep h (by omega)]
  omega

/-! ## The laws -/

/-- Whatever bookings a resource has and however many it can take at a time, the spans in which it
is booked up stand in order. Each of them holds an instant and stops before the next one starts,
and together they cover the instants at which as many bookings run as the resource can take. A
resource that takes one booking is answered without a sweep, by merging its bookings; the sweep
would give the same spans. -/
theorem a_resource_is_booked_up_where_its_capacity_is_reached {busy : List Span}
    (h : AllProper busy) (capacity : Nat) :
    Sorted (blockingSpans busy capacity) ∧ AllProper (blockingSpans busy capacity) ∧
      Apart (blockingSpans busy capacity) ∧
      (∀ t, CoveredBy (blockingSpans busy capacity) t ↔ max 1 capacity ≤ occupancyAt busy t) ∧
      Span.coalesce busy = saturated 1 0 (changes busy) := by
  have hascending := changes_ascending busy
  have hproper : AllProper (blockingSpans busy capacity) := by
    rw [blockingSpans_eq h]
    exact saturated_proper _ _ _ hascending
  have hapart : Apart (blockingSpans busy capacity) := by
    rw [blockingSpans_eq h]
    exact saturated_apart _ _ _ hascending
  exact ⟨sorted_of_apart hproper hapart, hproper, hapart, coveredBy_blockingSpans h capacity,
    coalesce_eq_sweep h⟩

/-- Where one booking takes over from another, a resource for two stays booked up: the changes of
such an instant come to nothing. A booking that is there twice fills the resource alone. -/
theorem bookings_that_take_over_leave_no_gap :
    let busy : List Span := [⟨10, 20⟩, ⟨40, 50⟩, ⟨0, 15⟩, ⟨15, 30⟩, ⟨0, 10⟩, ⟨40, 50⟩, ⟨20, 25⟩]
    AllProper busy ∧ blockingSpans busy 2 = [⟨0, 25⟩, ⟨40, 50⟩] ∧
      (∀ t, CoveredBy [⟨0, 25⟩, ⟨40, 50⟩] t ↔ max 1 2 ≤ occupancyAt busy t) ∧
      [⟨0, 30⟩, ⟨40, 50⟩] = saturated 1 0 (changes busy) := by
  intro busy
  have hproper : AllProper busy := by decide
  have hspans : blockingSpans busy 2 = [⟨0, 25⟩, ⟨40, 50⟩] := by cbv
  have hmerged : Span.coalesce busy = [⟨0, 30⟩, ⟨40, 50⟩] := by cbv
  obtain ⟨_, _, _, hcovers, hshort⟩ :=
    a_resource_is_booked_up_where_its_capacity_is_reached hproper 2
  rw [hspans] at hcovers
  rw [hmerged] at hshort
  exact ⟨hproper, hspans, hcovers, hshort⟩

end FreeTime
