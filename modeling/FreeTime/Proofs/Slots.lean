-- The laws of lists of slots. Slots that all carry one set of resources behave as their spans
-- do: in solving every list that is merged is of this kind, so both ways of merging agree.
import FreeTime.Proofs.Spans
import FreeTime.Slot.Combine
import FreeTime.Slot.Normalize

namespace FreeTime

namespace Slot

def spansOf (slots : List Slot) : List Span := slots.map Slot.toSpan

/-- Slots over some spans, all with one set of resources. -/
def tagged (ids : IdSet) (spans : List Span) : List Slot := spans.map fun s => ⟨s, ids⟩

theorem coveredBySlots_iff (slots : List Slot) (t : Int) :
    CoveredBySlots slots t ↔ CoveredBy (spansOf slots) t := by
  constructor
  · rintro ⟨s, hs, hc⟩
    exact ⟨s.toSpan, List.mem_map_of_mem hs, hc⟩
  · rintro ⟨span, hspan, hc⟩
    obtain ⟨s, hs, rfl⟩ := List.mem_map.mp hspan
    exact ⟨s, hs, hc⟩

@[simp] theorem spansOf_tagged (ids : IdSet) (spans : List Span) :
    spansOf (tagged ids spans) = spans := by
  simp [spansOf, tagged, Function.comp_def]

theorem retag_eq (ids : IdSet) (slots : List Slot) : retag ids slots = tagged ids (spansOf slots) := by
  simp [retag, tagged, spansOf]

theorem map_single (id : Int) (spans : List Span) :
    spans.map (single · id) = tagged (.singleton id) spans := rfl

theorem separated_iff (slots : List Slot) : Separated slots ↔ Apart (spansOf slots) := by
  unfold Apart spansOf
  rw [List.pairwise_map]
  rfl

/-! ## The slots with one set -/

/-- The slots that have just the given resources. -/
def withSet (ids : IdSet) (slots : List Slot) : List Slot :=
  slots.filter fun s => decide (s.ids = ids)

theorem mem_withSet {ids : IdSet} {slots : List Slot} {s : Slot} :
    s ∈ withSet ids slots ↔ s ∈ slots ∧ s.ids = ids := by
  simp [withSet]

/-- Slots with one set are known by their spans. -/
theorem withSet_eq_tagged (ids : IdSet) (slots : List Slot) :
    withSet ids slots = tagged ids (spansOf (withSet ids slots)) := by
  unfold tagged spansOf
  rw [List.map_map]
  refine (List.map_id _).symm.trans (List.map_congr_left fun s hs => ?_)
  exact Slot.ext rfl rfl (mem_withSet.mp hs).2

theorem withSet_proper {slots : List Slot} (h : AllProper (spansOf slots)) (ids : IdSet) :
    AllProper (spansOf (withSet ids slots)) := fun span hspan => by
  obtain ⟨s, hs, rfl⟩ := List.mem_map.mp hspan
  exact h s.toSpan (List.mem_map_of_mem (mem_withSet.mp hs).1)

/-! ## Merging slots with one set -/

theorem union_self (ids : IdSet) : ids.union ids = ids := IdSet.ext_mem fun x => by simp

theorem sort_tagged (ids : IdSet) (spans : List Span) :
    sort (tagged ids spans) = tagged ids (spans.mergeSort Span.sortsBefore) := by
  unfold sort tagged
  rw [List.map_mergeSort (s := sortsBefore)]
  exact fun _ _ _ _ => rfl

theorem mergeFrom_tagged (ids : IdSet) (carried : Span) (spans : List Span) :
    mergeFrom ⟨carried, ids⟩ (tagged ids spans) = tagged ids (Span.mergeFrom carried spans) := by
  induction spans generalizing carried with
  | nil => rfl
  | cons next rest ih =>
    simp only [tagged, List.map_cons, mergeFrom, Span.mergeFrom, union_self] at ih ⊢
    split
    · exact ih _
    · rw [ih next, List.map_cons]

theorem mergeByTime_tagged (ids : IdSet) (spans : List Span) :
    mergeByTime (tagged ids spans) = tagged ids (Span.merge spans) := by
  cases spans with
  | nil => rfl
  | cons s rest => exact mergeFrom_tagged ids s rest

/-- With one set for all, the newest slot is the only one that a further slot can lengthen. -/
theorem foldl_addExact_tagged (ids : IdSet) (carried : Span) (spans : List Span)
    (closed : List Slot) :
    (tagged ids spans).foldl addExact (⟨carried, ids⟩ :: closed) =
      (tagged ids (Span.mergeFrom carried spans)).reverse ++ closed := by
  induction spans generalizing carried closed with
  | nil => rfl
  | cons next rest ih =>
    simp only [tagged, List.map_cons, List.foldl_cons, addExact, lengthen?, if_true,
      Span.mergeFrom] at ih ⊢
    split
    · rename_i merged hm
      split at hm
      · rename_i htouch
        cases hm
        rw [if_pos htouch]
        exact ih _ closed
      · cases hm
    · rename_i hm
      split at hm
      · cases hm
      · rename_i hgap
        rw [if_neg hgap, ih next, List.map_cons, List.reverse_cons, List.append_assoc]
        rfl

theorem mergeBySet_tagged (ids : IdSet) (spans : List Span) :
    mergeBySet (tagged ids spans) = tagged ids (Span.merge spans) := by
  cases spans with
  | nil => rfl
  | cons s rest =>
    have h := foldl_addExact_tagged ids s rest []
    simp only [mergeBySet, tagged, List.map_cons, List.foldl_cons, addExact, lengthen?] at h ⊢
    rw [h, List.append_nil, List.reverse_reverse]
    rfl

/-- For slots with one set, merging by set and merging by time give the same list. -/
theorem normalize_tagged (exact : Bool) (ids : IdSet) (spans : List Span) :
    normalize exact (tagged ids spans) = tagged ids (Span.coalesce spans) := by
  unfold normalize
  rw [sort_tagged]
  split
  · rw [mergeBySet_tagged, sort_tagged]
    change tagged ids ((Span.coalesce spans).mergeSort Span.sortsBefore) = _
    rw [List.mergeSort_of_pairwise (Span.coalesce_sorted spans)]
  · rw [mergeByTime_tagged]
    rfl

@[simp] theorem normalize_nil (exact : Bool) : normalize exact [] = [] :=
  (normalize_tagged exact .empty []).trans (by rw [Span.coalesce_nil, tagged, List.map_nil])

theorem unionAll_retag (exact : Bool) (ids : IdSet) (lists : List (List Slot)) :
    unionAll exact (lists.map (retag ids)) =
      tagged ids (Span.coalesce (lists.flatMap spansOf)) := by
  have hflat : (lists.map (retag ids)).flatten = tagged ids (lists.flatMap spansOf) := by
    induction lists with
    | nil => rfl
    | cons slots lists ih =>
      rw [List.map_cons, List.flatten_cons, ih, retag_eq]
      simp [tagged]
  rw [unionAll, hflat, normalize_tagged]

/-! ## Cutting and sharing -/

theorem subtract_tagged (ids : IdSet) (spans blocks : List Span) :
    subtract (tagged ids spans) blocks = tagged ids (spans.flatMap (·.punch blocks)) := by
  rw [subtract_eq]
  simp only [tagged, List.map_flatMap, List.flatMap_map]
  rfl

/-- What two slots share covers what both cover. -/
theorem coveredBy_intersection (a b : Slot) (t : Int) :
    CoveredBy (spansOf (a.intersection b).toList) t ↔ a.Covers t ∧ b.Covers t := by
  unfold intersection
  cases h : a.toSpan.intersection b.toSpan with
  | none =>
    have := Span.intersection_eq_none h t
    simp [spansOf, this]
  | some c =>
    have := Span.intersection_covers h t
    simp [spansOf, this]

theorem intersection_spec {a b c : Slot} (h : c ∈ (a.intersection b).toList) :
    c.toSpan.Proper ∧ c.start = max a.start b.start := by
  unfold intersection at h
  simp only [Option.mem_toList, Option.map_eq_some_iff, Span.intersection] at h
  obtain ⟨span, hspan, rfl⟩ := h
  split at hspan
  · cases hspan
    exact ⟨‹_›, rfl⟩
  · cases hspan

/-- Every slot of what two lists share is shared by a slot of each. -/
theorem mem_intersect {c : Slot} {as bs : List Slot} (h : c ∈ intersect as bs) :
    ∃ a ∈ as, ∃ b ∈ bs, c ∈ (a.intersection b).toList := by
  induction as, bs using intersect.induct with
  | case1 a as b bs ih1 ih2 =>
    rw [intersect.eq_1] at h
    rcases List.mem_append.mp h with h | h
    · exact ⟨a, by simp, b, by simp, h⟩
    · split at h
      · obtain ⟨a', ha, b', hb, hc⟩ := ih1 h
        exact ⟨a', List.mem_cons_of_mem _ ha, b', hb, hc⟩
      · obtain ⟨a', ha, b', hb, hc⟩ := ih2 h
        exact ⟨a', ha, b', List.mem_cons_of_mem _ hb, hc⟩
  | case2 bs => simp [intersect.eq_2] at h
  | case3 as hne => simp [intersect.eq_3 as hne] at h

theorem intersect_proper (as bs : List Slot) : AllProper (spansOf (intersect as bs)) := by
  intro span hspan
  obtain ⟨c, hc, rfl⟩ := List.mem_map.mp hspan
  obtain ⟨a, _, b, _, h⟩ := mem_intersect hc
  exact (intersection_spec h).1

/-- Lists in the order of their starts share slots in the order of their starts. -/
theorem intersect_byStart {as bs : List Slot} (ha : ByStart (spansOf as))
    (hb : ByStart (spansOf bs)) : ByStart (spansOf (intersect as bs)) := by
  induction as, bs using intersect.induct with
  | case1 a as b bs ih1 ih2 =>
    obtain ⟨hfa, hra⟩ := List.pairwise_cons.mp ha
    obtain ⟨hfb, hrb⟩ := List.pairwise_cons.mp hb
    have hle : ∀ {x y : Slot} {xs : List Slot}, (∀ s ∈ spansOf xs, x.start ≤ s.start) →
        y ∈ x :: xs → x.start ≤ y.start := by
      intro x y xs hx hy
      rcases List.mem_cons.mp hy with rfl | hy
      · exact Int.le_refl _
      · exact hx _ (List.mem_map_of_mem hy)
    rw [intersect.eq_1, spansOf, List.map_append]
    refine List.pairwise_append.mpr ⟨?_, ?_, ?_⟩
    · cases a.intersection b <;> simp
    · split
      · exact ih1 hra hb
      · exact ih2 ha hrb
    · intro s hs u hu
      obtain ⟨c, hc, rfl⟩ := List.mem_map.mp hs
      obtain ⟨d, hd, rfl⟩ := List.mem_map.mp hu
      have hrest : ∃ a' ∈ a :: as, ∃ b' ∈ b :: bs, d ∈ (a'.intersection b').toList := by
        apply mem_intersect
        rw [intersect.eq_1]
        exact List.mem_append_right _ hd
      obtain ⟨a', ha', b', hb', hd'⟩ := hrest
      have h1 := (intersection_spec hc).2
      have h2 := (intersection_spec hd').2
      have h3 := hle hfa ha'
      have h4 := hle hfb hb'
      omega
  | case2 bs =>
    rw [intersect.eq_2]
    exact List.Pairwise.nil
  | case3 as hne =>
    rw [intersect.eq_3 as hne]
    exact List.Pairwise.nil

/-- An instant of the slot that is done with lies in the other slot, if it lies in any later
one of the other list. -/
theorem covers_of_done {x y : Slot} {ys : List Slot} (hy : ByStart (spansOf (y :: ys)))
    (hstop : x.stop ≤ y.stop) {t : Int} (hx : x.Covers t)
    (ht : CoveredBy (spansOf (y :: ys)) t) : y.Covers t := by
  obtain ⟨s, hs, hc⟩ := ht
  have hstart : y.start ≤ s.start := by
    rcases List.mem_cons.mp hs with rfl | hs
    · exact Int.le_refl _
    · exact List.rel_of_pairwise_cons hy hs
  simp only [Span.Covers] at *
  omega

/-- What two lists share covers the instants that both cover. -/
theorem coveredBy_intersect {as bs : List Slot} (ha : ByStart (spansOf as))
    (hb : ByStart (spansOf bs)) (t : Int) :
    CoveredBy (spansOf (intersect as bs)) t ↔
      CoveredBy (spansOf as) t ∧ CoveredBy (spansOf bs) t := by
  induction as, bs using intersect.induct with
  | case1 a as b bs ih1 ih2 =>
    have hra : ByStart (spansOf as) := List.Pairwise.of_cons ha
    have hrb : ByStart (spansOf bs) := List.Pairwise.of_cons hb
    have hcons : ∀ (x : Slot) (xs : List Slot),
        CoveredBy (spansOf (x :: xs)) t ↔ x.Covers t ∨ CoveredBy (spansOf xs) t :=
      fun x xs => coveredBy_cons x.toSpan (spansOf xs) t
    rw [intersect.eq_1, spansOf, List.map_append, coveredBy_append]
    split
    · rename_i hstop
      have hdone := covers_of_done hb hstop (t := t)
      have := coveredBy_intersection a b t
      have := ih1 hra hb
      have := hcons a as
      have := hcons b bs
      simp only [spansOf] at *
      grind
    · rename_i hstop
      have hdone := covers_of_done ha (Int.le_of_lt (Int.not_le.mp hstop)) (t := t)
      have := coveredBy_intersection a b t
      have := ih2 ha hrb
      have := hcons a as
      have := hcons b bs
      simp only [spansOf] at *
      grind
  | case2 bs => simp [intersect.eq_2, spansOf]
  | case3 as hne => simp [intersect.eq_3 as hne, spansOf]

end Slot

end FreeTime
