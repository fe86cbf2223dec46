-- The laws of lists of spans: what a merged list covers, what is left when blocks are cut
-- out, and why two merged lists that cover the same instants are the same list.
import FreeTime.Span

namespace FreeTime

/-- The spans stand in the order of their starts. -/
def ByStart (spans : List Span) : Prop := spans.Pairwise fun a b => a.start ≤ b.start

/-- The spans stand in the order in which spans are sorted. -/
def Sorted (spans : List Span) : Prop := spans.Pairwise fun a b => a.sortsBefore b = true

/-- Every span stops before the next one starts. -/
def Apart (spans : List Span) : Prop := spans.Pairwise fun a b => a.stop < b.start

def AllProper (spans : List Span) : Prop := ∀ s ∈ spans, s.Proper

instance (spans : List Span) : Decidable (AllProper spans) :=
  inferInstanceAs (Decidable (∀ s ∈ spans, s.Proper))

instance (spans : List Span) : Decidable (ByStart spans) :=
  inferInstanceAs (Decidable (spans.Pairwise _))

instance (spans : List Span) : Decidable (Sorted spans) :=
  inferInstanceAs (Decidable (spans.Pairwise _))

/-! ## What a list covers -/

@[simp] theorem not_coveredBy_nil (t : Int) : ¬ CoveredBy [] t := by
  rintro ⟨s, hs, _⟩
  cases hs

@[simp] theorem coveredBy_cons (s : Span) (spans : List Span) (t : Int) :
    CoveredBy (s :: spans) t ↔ s.Covers t ∨ CoveredBy spans t := by
  simp [CoveredBy]

@[simp] theorem coveredBy_append (a b : List Span) (t : Int) :
    CoveredBy (a ++ b) t ↔ CoveredBy a t ∨ CoveredBy b t := by
  simp only [CoveredBy, List.mem_append]
  constructor
  · rintro ⟨s, hs | hs, hc⟩
    · exact Or.inl ⟨s, hs, hc⟩
    · exact Or.inr ⟨s, hs, hc⟩
  · rintro (⟨s, hs, hc⟩ | ⟨s, hs, hc⟩)
    · exact ⟨s, Or.inl hs, hc⟩
    · exact ⟨s, Or.inr hs, hc⟩

theorem coveredBy_flatMap {α : Type} (f : α → List Span) (xs : List α) (t : Int) :
    CoveredBy (xs.flatMap f) t ↔ ∃ x ∈ xs, CoveredBy (f x) t := by
  simp only [CoveredBy, List.mem_flatMap]
  constructor
  · rintro ⟨s, ⟨x, hx, hs⟩, hc⟩
    exact ⟨x, hx, s, hs, hc⟩
  · rintro ⟨x, hx, s, hs, hc⟩
    exact ⟨s, ⟨x, hx, hs⟩, hc⟩

theorem coveredBy_of_mem_iff {a b : List Span} (h : ∀ s, s ∈ a ↔ s ∈ b) (t : Int) :
    CoveredBy a t ↔ CoveredBy b t := by
  simp only [CoveredBy, h]

/-- Spans that all start after an instant do not cover it. -/
theorem not_coveredBy_of_lt {spans : List Span} {t : Int} (h : ∀ s ∈ spans, t < s.start) :
    ¬ CoveredBy spans t := by
  rintro ⟨s, hs, hc⟩
  have := h s hs
  have := hc.1
  omega

namespace Span

theorem contains_iff {a b : Span} : a.contains b = true ↔ a.start ≤ b.start ∧ b.stop ≤ a.stop := by
  simp [contains]

@[simp] theorem contains_self (s : Span) : s.contains s = true := by simp [contains]

/-! ## Merging -/

theorem sortsBefore_trans (a b c : Span) (hab : a.sortsBefore b = true)
    (hbc : b.sortsBefore c = true) : a.sortsBefore c = true := by
  simp only [sortsBefore, Bool.or_eq_true, Bool.and_eq_true, decide_eq_true_eq] at *
  omega

theorem sortsBefore_total (a b : Span) : (a.sortsBefore b || b.sortsBefore a) = true := by
  simp only [sortsBefore, Bool.or_eq_true, Bool.and_eq_true, decide_eq_true_eq]
  omega

theorem start_le_of_sortsBefore {a b : Span} (h : a.sortsBefore b = true) : a.start ≤ b.start := by
  simp only [sortsBefore, Bool.or_eq_true, Bool.and_eq_true, decide_eq_true_eq] at h
  omega

theorem mergeSort_sorted (spans : List Span) : Sorted (spans.mergeSort sortsBefore) :=
  List.pairwise_mergeSort sortsBefore_trans sortsBefore_total spans

/-- Spans in order that are the same but for their order are the same list. -/
theorem eq_of_sorted_perm {a b : List Span} (ha : Sorted a) (hb : Sorted b) (h : a.Perm b) :
    a = b := by
  refine List.Perm.eq_of_pairwise (fun x y _ _ hxy hyx => ?_) ha hb h
  simp only [sortsBefore, Bool.or_eq_true, Bool.and_eq_true, decide_eq_true_eq] at hxy hyx
  exact Span.ext (by omega) (by omega)

theorem byStart_of_sorted {spans : List Span} (h : Sorted spans) : ByStart spans :=
  h.imp start_le_of_sortsBefore

/-- Every merged span starts as one of the spans it is made of, and reaches at least as far. -/
theorem mem_mergeFrom {x : Span} (spans : List Span) (carried : Span)
    (h : x ∈ mergeFrom carried spans) :
    ∃ y ∈ carried :: spans, y.start = x.start ∧ y.stop ≤ x.stop := by
  induction spans generalizing carried with
  | nil =>
    simp only [mergeFrom, List.mem_singleton] at h
    subst h
    exact ⟨x, by simp, rfl, Int.le_refl _⟩
  | cons next rest ih =>
    simp only [mergeFrom] at h
    split at h
    · obtain ⟨y, hy, hstart, hstop⟩ := ih _ h
      rcases List.mem_cons.mp hy with rfl | hy
      · simp only at hstart hstop
        exact ⟨carried, by simp, hstart, by omega⟩
      · exact ⟨y, by simp [hy], hstart, hstop⟩
    · rcases List.mem_cons.mp h with rfl | h
      · exact ⟨x, by simp, rfl, Int.le_refl _⟩
      · obtain ⟨y, hy, hxy⟩ := ih next h
        exact ⟨y, List.mem_cons_of_mem _ hy, hxy⟩

/-- What is carried meets or touches the next span, so nothing comes in between the two. -/
theorem covers_join {a b : Span} (hab : a.start ≤ b.start) (htouch : b.start ≤ a.stop) (t : Int) :
    Covers ⟨a.start, max a.stop b.stop⟩ t ↔ a.Covers t ∨ b.Covers t := by
  simp only [Covers]
  omega

theorem coveredBy_mergeFrom (spans : List Span) (carried : Span) (h : ByStart (carried :: spans))
    (t : Int) : CoveredBy (mergeFrom carried spans) t ↔ CoveredBy (carried :: spans) t := by
  induction spans generalizing carried with
  | nil => simp [mergeFrom]
  | cons next rest ih =>
    obtain ⟨hfirst, hrest⟩ := List.pairwise_cons.mp h
    have hnext : carried.start ≤ next.start := hfirst next (by simp)
    simp only [mergeFrom]
    split
    · have hjoined : ByStart (⟨carried.start, max carried.stop next.stop⟩ :: rest) :=
        List.pairwise_cons.mpr
          ⟨fun s hs => hfirst s (List.mem_cons_of_mem _ hs), hrest.of_cons⟩
      rw [ih _ hjoined, coveredBy_cons, coveredBy_cons, coveredBy_cons, covers_join hnext ‹_›,
        or_assoc]
    · rw [coveredBy_cons, ih next hrest, ← coveredBy_cons carried]

theorem mergeFrom_apart (spans : List Span) (carried : Span) (h : ByStart (carried :: spans)) :
    Apart (mergeFrom carried spans) := by
  induction spans generalizing carried with
  | nil => simp [mergeFrom, Apart]
  | cons next rest ih =>
    obtain ⟨hfirst, hrest⟩ := List.pairwise_cons.mp h
    simp only [mergeFrom]
    split
    · exact ih _ (List.pairwise_cons.mpr
        ⟨fun s hs => hfirst s (List.mem_cons_of_mem _ hs), hrest.of_cons⟩)
    · rename_i hgap
      refine List.pairwise_cons.mpr ⟨?_, ih next hrest⟩
      intro s hs
      obtain ⟨y, hy, hstart, _⟩ := mem_mergeFrom rest next hs
      have hle : next.start ≤ y.start := by
        rcases List.mem_cons.mp hy with rfl | hy
        · exact Int.le_refl _
        · exact List.rel_of_pairwise_cons hrest hy
      omega

/-- Merging keeps the order: what is taken in starts no sooner than what is carried. -/
theorem mergeFrom_sorted (spans : List Span) (carried : Span) (h : Sorted (carried :: spans)) :
    Sorted (mergeFrom carried spans) := by
  induction spans generalizing carried with
  | nil => simp [mergeFrom, Sorted]
  | cons next rest ih =>
    obtain ⟨hfirst, hrest⟩ := List.pairwise_cons.mp h
    have hnext := hfirst next (by simp)
    simp only [mergeFrom]
    split
    · refine ih _ (List.pairwise_cons.mpr ⟨?_, hrest.of_cons⟩)
      intro s hs
      have := List.rel_of_pairwise_cons hrest hs
      simp only [sortsBefore, Bool.or_eq_true, Bool.and_eq_true, decide_eq_true_eq] at *
      omega
    · refine List.pairwise_cons.mpr ⟨?_, ih next hrest⟩
      intro x hx
      obtain ⟨y, hy, hstart, hstop⟩ := mem_mergeFrom rest next hx
      have := hfirst y hy
      simp only [sortsBefore, Bool.or_eq_true, Bool.and_eq_true, decide_eq_true_eq] at *
      omega

theorem mergeFrom_proper (spans : List Span) (carried : Span) (h : AllProper (carried :: spans)) :
    AllProper (mergeFrom carried spans) := by
  induction spans generalizing carried with
  | nil => simpa [mergeFrom] using h
  | cons next rest ih =>
    have hcarried : carried.Proper := h carried (by simp)
    have hrest : ∀ s ∈ rest, s.Proper := fun s hs => h s (by simp [hs])
    simp only [mergeFrom]
    split
    · apply ih
      intro s hs
      rcases List.mem_cons.mp hs with rfl | hs
      · simp only [Proper] at hcarried ⊢
        omega
      · exact hrest s hs
    · intro s hs
      rcases List.mem_cons.mp hs with rfl | hs
      · exact hcarried
      · exact ih next (fun x hx => h x (List.mem_cons_of_mem _ hx)) s hs

theorem merge_apart {spans : List Span} (h : ByStart spans) : Apart (merge spans) := by
  cases spans with
  | nil => exact List.Pairwise.nil
  | cons first rest => exact mergeFrom_apart rest first h

theorem mem_merge {spans : List Span} {x : Span} (h : x ∈ merge spans) :
    ∃ y ∈ spans, y.start = x.start ∧ y.stop ≤ x.stop := by
  cases spans with
  | nil => cases h
  | cons first rest => exact mem_mergeFrom rest first h

/-- Every span of a coalesced list comes from merging the spans in order. -/
theorem coalesce_eq (spans : List Span) :
    (spans = [] ∧ coalesce spans = []) ∨
      ∃ first rest, spans.mergeSort sortsBefore = first :: rest ∧ Sorted (first :: rest) ∧
        coalesce spans = mergeFrom first rest := by
  have hsorted := mergeSort_sorted spans
  unfold coalesce
  rcases hs : spans.mergeSort sortsBefore with _ | ⟨first, rest⟩
  · have hlen := congrArg List.length hs
    rw [List.length_mergeSort] at hlen
    exact Or.inl ⟨List.length_eq_zero_iff.mp hlen, rfl⟩
  · exact Or.inr ⟨first, rest, rfl, hs ▸ hsorted, rfl⟩

@[simp] theorem coalesce_nil : coalesce [] = [] := by simp [coalesce, merge]

/-- Merging changes nothing in what a list covers. -/
theorem coveredBy_coalesce (spans : List Span) (t : Int) :
    CoveredBy (coalesce spans) t ↔ CoveredBy spans t := by
  rcases coalesce_eq spans with ⟨rfl, h⟩ | ⟨first, rest, hs, hsorted, h⟩
  · rw [h]
  · rw [h, coveredBy_mergeFrom rest first (byStart_of_sorted hsorted), ← hs]
    exact coveredBy_of_mem_iff (fun s => List.mem_mergeSort) t

/-- After merging, every span stops before the next one starts. -/
theorem coalesce_apart (spans : List Span) : Apart (coalesce spans) := by
  rcases coalesce_eq spans with ⟨rfl, h⟩ | ⟨first, rest, _, hsorted, h⟩
  · rw [h]
    exact List.Pairwise.nil
  · rw [h]
    exact mergeFrom_apart rest first (byStart_of_sorted hsorted)

/-- The order in which spans came does not show once they are merged. -/
theorem coalesce_perm {a b : List Span} (h : a.Perm b) : coalesce a = coalesce b := by
  have hperm := (List.mergeSort_perm a sortsBefore).trans
    (h.trans (List.mergeSort_perm b sortsBefore).symm)
  rw [coalesce, coalesce, eq_of_sorted_perm (mergeSort_sorted a) (mergeSort_sorted b) hperm]

theorem coalesce_sorted (spans : List Span) : Sorted (coalesce spans) := by
  rcases coalesce_eq spans with ⟨rfl, h⟩ | ⟨first, rest, _, hsorted, h⟩
  · rw [h]
    exact List.Pairwise.nil
  · rw [h]
    exact mergeFrom_sorted rest first hsorted

theorem coalesce_proper {spans : List Span} (hp : AllProper spans) :
    AllProper (coalesce spans) := by
  rcases coalesce_eq spans with ⟨rfl, h⟩ | ⟨first, rest, hs, _, h⟩
  · rw [h]
    exact hp
  · rw [h]
    apply mergeFrom_proper
    intro s hmem
    exact hp s (List.mem_mergeSort.mp (hs ▸ hmem))

/-! ## Cutting -/

theorem coveredBy_carve (blocks : List Span) (cursor stop : Int) (h : ByStart blocks) (t : Int) :
    CoveredBy (carve cursor stop blocks) t ↔ (cursor ≤ t ∧ t < stop) ∧ ¬ CoveredBy blocks t := by
  induction blocks generalizing cursor with
  | nil => simp [carve, Covers]
  | cons block rest ih =>
    obtain ⟨hfirst, hrest⟩ := List.pairwise_cons.mp h
    -- Later blocks cannot reach an instant before this one starts.
    have hlater : t < block.start → ¬ CoveredBy rest t := fun ht =>
      not_coveredBy_of_lt fun s hs => Int.lt_of_lt_of_le ht (hfirst s hs)
    have hfree : CoveredBy (if cursor < block.start then [(⟨cursor, block.start⟩ : Span)] else []) t ↔
        cursor ≤ t ∧ t < block.start := by
      split
      · simp [Covers]
      · simp only [not_coveredBy_nil, false_iff]
        omega
    simp only [carve]
    split
    · simp only [coveredBy_cons, not_coveredBy_nil, or_false, not_or, Covers]
      constructor
      · intro ht
        exact ⟨ht, by omega, hlater (by omega)⟩
      · exact fun ht => ht.1
    · split
      · rw [hfree, coveredBy_cons, not_or]
        simp only [Covers]
        constructor
        · intro ht
          exact ⟨by omega, by omega, hlater ht.2⟩
        · rintro ⟨h1, h2, _⟩
          omega
      · rw [coveredBy_append, hfree, ih _ hrest, coveredBy_cons, not_or]
        simp only [Covers]
        constructor
        · rintro (ht | ⟨ht, hn⟩)
          · exact ⟨by omega, by omega, hlater ht.2⟩
          · exact ⟨by omega, by omega, hn⟩
        · rintro ⟨h1, h2, hn⟩
          by_cases hb : t < block.start
          · exact Or.inl ⟨h1.1, hb⟩
          · exact Or.inr ⟨by omega, hn⟩

theorem carve_proper (blocks : List Span) {cursor stop : Int} (h : cursor < stop) :
    AllProper (carve cursor stop blocks) := by
  induction blocks generalizing cursor with
  | nil =>
    intro s hs
    rcases List.mem_singleton.mp hs with rfl
    exact h
  | cons block rest ih =>
    have hfree : AllProper (if cursor < block.start then [⟨cursor, block.start⟩] else []) := by
      intro s hs
      split at hs
      · rcases List.mem_singleton.mp hs with rfl
        assumption
      · cases hs
    simp only [carve]
    split
    · intro s hs
      rcases List.mem_singleton.mp hs with rfl
      exact h
    · split
      · exact hfree
      · intro s hs
        rcases List.mem_append.mp hs with hs | hs
        · exact hfree s hs
        · exact ih (by omega) s hs

/-- What is left of a span is what it covers and no block does. -/
theorem coveredBy_punch (base : Span) {blocks : List Span} (h : ByStart blocks) (t : Int) :
    CoveredBy (base.punch blocks) t ↔ base.Covers t ∧ ¬ CoveredBy blocks t := by
  unfold punch
  rw [coveredBy_carve _ _ _ (h.sublist (List.dropWhile_sublist _))]
  constructor
  · rintro ⟨hc, hn⟩
    refine ⟨hc, ?_⟩
    -- A block that was left behind stops before the span starts.
    rintro ⟨b, hb, hbt⟩
    rw [← List.takeWhile_append_dropWhile (p := fun b : Span => b.stop ≤ base.start) (l := blocks)]
      at hb
    rcases List.mem_append.mp hb with hb | hb
    · have := List.all_eq_true.mp List.all_takeWhile b hb
      simp only [decide_eq_true_eq] at this
      have := hbt.2
      omega
    · exact hn ⟨b, hb, hbt⟩
  · rintro ⟨hc, hn⟩
    exact ⟨hc, fun ⟨b, hb, hbt⟩ => hn ⟨b, (List.dropWhile_sublist _).mem hb, hbt⟩⟩

theorem punch_proper {base : Span} (blocks : List Span) (h : base.Proper) :
    AllProper (base.punch blocks) := carve_proper _ h

end Span

/-- Spans with gaps between them stand in the order in which spans are sorted. -/
theorem sorted_of_apart {spans : List Span} (hp : AllProper spans) (ha : Apart spans) :
    Sorted spans := by
  refine List.Pairwise.imp_of_mem ?_ ha
  intro a b hmem _ hab
  have hproper : a.start < a.stop := hp a hmem
  simp only [Span.sortsBefore, Bool.or_eq_true, decide_eq_true_eq]
  exact Or.inl (by omega)

/-- Two entries of a list are related one way or the other if each is related to the later ones,
or they are the same entry. -/
theorem eq_or_related {α : Type} {R : α → α → Prop} {xs : List α} (h : xs.Pairwise R) {x y : α}
    (hx : x ∈ xs) (hy : y ∈ xs) : x = y ∨ R x y ∨ R y x := by
  induction xs with
  | nil => cases hx
  | cons first rest ih =>
    obtain ⟨hfirst, hrest⟩ := List.pairwise_cons.mp h
    rcases List.mem_cons.mp hx with rfl | hxr
    · rcases List.mem_cons.mp hy with rfl | hyr
      · exact Or.inl rfl
      · exact Or.inr (Or.inl (hfirst y hyr))
    · rcases List.mem_cons.mp hy with rfl | hyr
      · exact Or.inr (Or.inr (hfirst x hxr))
      · exact ih hrest hxr hyr

/-- A span that is covered by spans with gaps between them lies within one of these: it cannot
reach over a gap. -/
theorem exists_contains_of_covered {spans : List Span} (ha : Apart spans) {x : Span}
    (hx : x.Proper) (h : ∀ t, x.Covers t → CoveredBy spans t) :
    ∃ s ∈ spans, s.contains x = true := by
  have hx : x.start < x.stop := hx
  obtain ⟨s, hs, hstart⟩ := h x.start ⟨Int.le_refl _, hx⟩
  refine ⟨s, hs, Span.contains_iff.mpr ⟨hstart.1, Int.not_lt.mp fun hshort => ?_⟩⟩
  obtain ⟨u, hu, hstop⟩ := h s.stop ⟨Int.le_of_lt hstart.2, hshort⟩
  have hgap := eq_or_related ha hs hu
  simp only [Span.Covers] at hstart hstop
  rcases hgap with rfl | hgap <;> omega

/-! ## One list for what is covered -/

theorem start_le_of_covers {s : Span} {spans : List Span} (hp : AllProper (s :: spans))
    (ha : Apart (s :: spans)) {t : Int} (ht : CoveredBy (s :: spans) t) : s.start ≤ t := by
  obtain ⟨x, hx, hc⟩ := ht
  rcases List.mem_cons.mp hx with rfl | hx
  · exact hc.1
  · have h1 : s.start < s.stop := hp s (by simp)
    have h2 : s.stop < x.start := List.rel_of_pairwise_cons ha hx
    have := hc.1
    omega

theorem stop_le_of_covers_all {x y : Span} {xs ys : List Span} (hp : x.Proper)
    (ha : Apart (x :: xs)) (hstart : x.start = y.start)
    (h : ∀ t, CoveredBy (y :: ys) t → CoveredBy (x :: xs) t) : y.stop ≤ x.stop := by
  apply Int.not_lt.mp
  intro hlt
  -- The second span would reach past the gap that follows the first one.
  have hp : x.start < x.stop := hp
  have hcov : CoveredBy (x :: xs) x.stop := by
    apply h
    rw [coveredBy_cons]
    left
    simp only [Span.Covers]
    omega
  rcases (coveredBy_cons _ _ _).mp hcov with hc | ⟨z, hz, hc⟩
  · simp only [Span.Covers] at hc
    omega
  · have h1 : x.stop < z.start := List.rel_of_pairwise_cons ha hz
    have := hc.1
    omega

theorem coveredBy_tail {x : Span} {xs ys : List Span} (ha : Apart (x :: xs))
    (h : ∀ t, CoveredBy (x :: xs) t → CoveredBy (x :: ys) t) (t : Int) (ht : CoveredBy xs t) :
    CoveredBy ys t := by
  rcases (coveredBy_cons _ _ _).mp (h t ((coveredBy_cons _ _ _).mpr (Or.inr ht))) with hc | hc
  · obtain ⟨z, hz, hcz⟩ := ht
    have h1 : x.stop < z.start := List.rel_of_pairwise_cons ha hz
    have := hcz.1
    have := hc.2
    omega
  · exact hc

/-- Proper spans with gaps between them are known by the instants they cover. -/
theorem eq_of_same_cover {xs ys : List Span} (hx : AllProper xs) (hy : AllProper ys)
    (ax : Apart xs) (ay : Apart ys) (h : ∀ t, CoveredBy xs t ↔ CoveredBy ys t) : xs = ys := by
  induction xs generalizing ys with
  | nil =>
    cases ys with
    | nil => rfl
    | cons y ys =>
      have hy0 : y.start < y.stop := hy y (by simp)
      have := (h y.start).mpr ⟨y, by simp, by simp only [Span.Covers]; omega⟩
      exact absurd this (not_coveredBy_nil _)
  | cons x xs ih =>
    have hx0 : x.start < x.stop := hx x (by simp)
    cases ys with
    | nil =>
      have := (h x.start).mp ⟨x, by simp, by simp only [Span.Covers]; omega⟩
      exact absurd this (not_coveredBy_nil _)
    | cons y ys =>
      have hy0 : y.start < y.stop := hy y (by simp)
      have hstart : x.start = y.start := by
        have h1 := start_le_of_covers hy ay
          ((h x.start).mp ⟨x, by simp, by simp only [Span.Covers]; omega⟩)
        have h2 := start_le_of_covers hx ax
          ((h y.start).mpr ⟨y, by simp, by simp only [Span.Covers]; omega⟩)
        omega
      have hstop : x.stop = y.stop := by
        have h1 := stop_le_of_covers_all hx0 ax hstart fun t => (h t).mpr
        have h2 := stop_le_of_covers_all hy0 ay hstart.symm fun t => (h t).mp
        omega
      obtain rfl : x = y := Span.ext hstart hstop
      have htail : ∀ t, CoveredBy xs t ↔ CoveredBy ys t := fun t =>
        ⟨coveredBy_tail ax (fun t => (h t).mp) t, coveredBy_tail ay (fun t => (h t).mpr) t⟩
      rw [ih (fun s hs => hx s (List.mem_cons_of_mem _ hs))
        (fun s hs => hy s (List.mem_cons_of_mem _ hs)) ax.of_cons ay.of_cons htail]

end FreeTime
