-- The laws of normal lists. Merged by time, a list has the spans that its spans merge into, each
-- with the resources of the slots that lie inside. Merged by set, the slots with one set are merged
-- as if there were no others, however they are interleaved. So it never matters in which order the
-- slots came, and a normal list is left as it is.
import FreeTime.Proofs.Slots

namespace FreeTime

namespace Slot

variable {slots other : List Slot} {ids : IdSet}

/-! ## Sorting -/

theorem spansOf_sort (slots : List Slot) :
    spansOf (sort slots) = (spansOf slots).mergeSort Span.sortsBefore := by
  unfold sort spansOf
  rw [List.map_mergeSort (s := Span.sortsBefore)]
  exact fun _ _ _ _ => rfl

theorem sort_sorted (slots : List Slot) : Sorted (spansOf (sort slots)) := by
  rw [spansOf_sort]
  exact Span.mergeSort_sorted _

theorem mem_sort {s : Slot} : s ∈ sort slots ↔ s ∈ slots := List.mem_mergeSort

/-- A list that is in order keeps its order, also where two slots have the same span. -/
theorem sort_of_sorted (h : Sorted (spansOf slots)) : sort slots = slots :=
  List.mergeSort_of_pairwise (List.pairwise_map.mp h)

theorem proper_of_perm (h : other.Perm slots) (hs : AllProper (spansOf slots)) :
    AllProper (spansOf other) := fun x hx => hs x ((h.map Slot.toSpan).mem_iff.mp hx)

/-! ## Merging by time -/

theorem spansOf_mergeFrom (carried : Slot) (slots : List Slot) :
    spansOf (mergeFrom carried slots) = Span.mergeFrom carried.toSpan (spansOf slots) := by
  induction slots generalizing carried with
  | nil => rfl
  | cons next rest ih =>
    simp only [spansOf, List.map_cons, mergeFrom, Span.mergeFrom] at ih ⊢
    split
    · exact ih _
    · rw [List.map_cons, ih next]

/-- Merged by time, a list has the merged spans. -/
theorem spansOf_normalize (slots : List Slot) :
    spansOf (normalize false slots) = Span.coalesce (spansOf slots) := by
  have hmerged : spansOf (mergeByTime (sort slots)) = Span.merge (spansOf (sort slots)) := by
    cases sort slots with
    | nil => rfl
    | cons first rest => exact spansOf_mergeFrom first rest
  rw [Span.coalesce, ← spansOf_sort, ← hmerged]
  rfl

/-- What is carried may reach further and have more resources: the order of starts stays. -/
theorem byStart_joined {carried next : Slot} (h : ByStart (spansOf (carried :: next :: slots)))
    (stop : Int) (ids : IdSet) : ByStart (spansOf (⟨⟨carried.start, stop⟩, ids⟩ :: slots)) := by
  obtain ⟨hfirst, hrest⟩ := List.pairwise_cons.mp h
  exact List.pairwise_cons.mpr
    ⟨fun x hx => hfirst x (List.mem_cons_of_mem _ hx), hrest.of_cons⟩

/-- Every slot is taken into a merged one that reaches over all of it and has all its
resources. -/
theorem exists_around {carried : Slot} (h : ByStart (spansOf (carried :: slots))) {s : Slot}
    (hs : s ∈ carried :: slots) :
    ∃ m ∈ mergeFrom carried slots, m.contains s.toSpan = true ∧ ∀ id ∈ s.ids, id ∈ m.ids := by
  induction slots generalizing carried s with
  | nil =>
    rcases List.mem_singleton.mp hs with rfl
    exact ⟨s, by simp [mergeFrom], by simp, fun _ hid => hid⟩
  | cons next rest ih =>
    obtain ⟨hfirst, hrest⟩ := List.pairwise_cons.mp h
    have hnext : carried.start ≤ next.start := hfirst next.toSpan (by simp)
    unfold mergeFrom
    split
    · have hjoined := byStart_joined h (max carried.stop next.stop) (carried.ids.union next.ids)
      obtain ⟨m, hm, haround, hids⟩ := ih hjoined List.mem_cons_self
      simp only [Span.contains_iff, IdSet.mem_union] at haround hids
      rcases List.mem_cons.mp hs with rfl | hs
      · exact ⟨m, hm, Span.contains_iff.mpr (by omega), fun id hid => hids id (Or.inl hid)⟩
      · rcases List.mem_cons.mp hs with rfl | hs
        · exact ⟨m, hm, Span.contains_iff.mpr (by omega), fun id hid => hids id (Or.inr hid)⟩
        · exact ih hjoined (List.mem_cons_of_mem _ hs)
    · rcases List.mem_cons.mp hs with rfl | hs
      · exact ⟨s, by simp, by simp, fun _ hid => hid⟩
      · obtain ⟨m, hm, hsm⟩ := ih hrest hs
        exact ⟨m, List.mem_cons_of_mem _ hm, hsm⟩

/-- Every resource of a merged slot comes from a slot that lies inside it. -/
theorem exists_inside {carried : Slot} (h : ByStart (spansOf (carried :: slots))) {m : Slot}
    (hm : m ∈ mergeFrom carried slots) {id : Int} (hid : id ∈ m.ids) :
    ∃ s ∈ carried :: slots, m.contains s.toSpan = true ∧ id ∈ s.ids := by
  induction slots generalizing carried with
  | nil =>
    rcases List.mem_singleton.mp hm with rfl
    exact ⟨m, by simp, by simp, hid⟩
  | cons next rest ih =>
    obtain ⟨hfirst, hrest⟩ := List.pairwise_cons.mp h
    have hnext : carried.start ≤ next.start := hfirst next.toSpan (by simp)
    unfold mergeFrom at hm
    split at hm
    · obtain ⟨s, hs, haround, hids⟩ := ih (byStart_joined h _ _) hm
      rcases List.mem_cons.mp hs with rfl | hs
      · rw [Span.contains_iff] at haround
        simp only at haround
        rcases IdSet.mem_union.mp hids with hids | hids
        · exact ⟨carried, by simp, Span.contains_iff.mpr (by omega), hids⟩
        · exact ⟨next, by simp, Span.contains_iff.mpr (by omega), hids⟩
      · exact ⟨s, by simp [hs], haround, hids⟩
    · rcases List.mem_cons.mp hm with rfl | hm
      · exact ⟨m, by simp, by simp, hid⟩
      · obtain ⟨s, hs, hsm⟩ := ih hrest hm
        exact ⟨s, List.mem_cons_of_mem _ hs, hsm⟩

/-- The resources of several slots. -/
def idsOf (slots : List Slot) : IdSet := slots.foldr (fun s ids => s.ids.union ids) .empty

theorem mem_idsOf {id : Int} : id ∈ idsOf slots ↔ ∃ s ∈ slots, id ∈ s.ids := by
  unfold idsOf
  induction slots with
  | nil => simp
  | cons s rest ih => simp [ih]

/-- The resources of the slots that lie inside a span. -/
def idsWithin (slots : List Slot) (span : Span) : IdSet :=
  idsOf (slots.filter fun s => span.contains s.toSpan)

theorem mem_idsWithin {span : Span} {id : Int} :
    id ∈ idsWithin slots span ↔ ∃ s ∈ slots, span.contains s.toSpan = true ∧ id ∈ s.ids := by
  unfold idsWithin
  simp [mem_idsOf, and_assoc]

/-- A merged slot has the resources of the slots inside it. -/
theorem mem_ids_normalize (h : AllProper (spansOf slots)) {m : Slot}
    (hm : m ∈ normalize false slots) {id : Int} :
    id ∈ m.ids ↔ ∃ s ∈ slots, m.contains s.toSpan = true ∧ id ∈ s.ids := by
  have hapart : Separated (normalize false slots) := by
    rw [separated_iff, spansOf_normalize]
    exact Span.coalesce_apart _
  have hbystart := Span.byStart_of_sorted (sort_sorted slots)
  have hmem : ∀ s, s ∈ slots ↔ s ∈ sort slots := fun _ => mem_sort.symm
  simp only [hmem]
  change m ∈ mergeByTime (sort slots) at hm
  change Separated (mergeByTime (sort slots)) at hapart
  cases hsort : sort slots with
  | nil =>
    rw [hsort] at hm
    cases hm
  | cons first rest =>
    rw [hsort] at hm hapart hbystart
    refine ⟨exists_inside hbystart hm, ?_⟩
    rintro ⟨s, hs, hinside, hid⟩
    obtain ⟨m', hm', haround, hids⟩ := exists_around hbystart hs
    -- The slot lies in one merged slot only: another one would be across a gap.
    have hproper : s.start < s.stop :=
      h s.toSpan (List.mem_map_of_mem (mem_sort.mp (hsort ▸ hs)))
    rw [Span.contains_iff] at hinside haround
    obtain rfl | hgap := eq_or_related hapart hm hm'
    · exact hids id hid
    · omega

/-- Merged by time, a list is known by the spans of its slots and what lies inside them. -/
theorem normalize_by_time_eq (h : AllProper (spansOf slots)) :
    normalize false slots =
      (Span.coalesce (spansOf slots)).map fun span => ⟨span, idsWithin slots span⟩ := by
  rw [← spansOf_normalize, spansOf, List.map_map]
  refine (List.map_id _).symm.trans (List.map_congr_left fun m hm => ?_)
  refine Slot.ext rfl rfl (IdSet.ext_mem fun id => ?_)
  exact (mem_ids_normalize h hm).trans mem_idsWithin.symm

theorem normalize_by_time_perm (h : AllProper (spansOf slots)) (hperm : other.Perm slots) :
    normalize false other = normalize false slots := by
  have hspans : Span.coalesce (spansOf other) = Span.coalesce (spansOf slots) :=
    Span.coalesce_perm (hperm.map Slot.toSpan)
  rw [normalize_by_time_eq h, normalize_by_time_eq (proper_of_perm hperm h), hspans]
  refine List.map_congr_left fun span _ => Slot.ext rfl rfl (IdSet.ext_mem fun id => ?_)
  rw [mem_idsWithin, mem_idsWithin]
  simp only [hperm.mem_iff]

theorem mergeFrom_of_separated {carried : Slot} (h : Separated (carried :: slots)) :
    mergeFrom carried slots = carried :: slots := by
  induction slots generalizing carried with
  | nil => rfl
  | cons next rest ih =>
    obtain ⟨hfirst, hrest⟩ := List.pairwise_cons.mp h
    have hgap : carried.stop < next.start := hfirst next (by simp)
    unfold mergeFrom
    rw [if_neg (by omega), ih hrest]

theorem normalize_by_time_of_separated (hsorted : Sorted (spansOf slots)) (h : Separated slots) :
    normalize false slots = slots := by
  change mergeByTime (sort slots) = slots
  rw [sort_of_sorted hsorted]
  cases slots with
  | nil => rfl
  | cons first rest => exact mergeFrom_of_separated h

/-! ## Merging by set -/

/-- Picking out the slots with one set and sorting them come to the same in either order. -/
theorem withSet_sort (ids : IdSet) (slots : List Slot) :
    withSet ids (sort slots) = sort (withSet ids slots) := by
  have hperm : (withSet ids (sort slots)).Perm (sort (withSet ids slots)) :=
    ((List.mergeSort_perm slots _).filter _).trans (List.mergeSort_perm _ _).symm
  have hsorted : (withSet ids (sort slots)).Pairwise fun a b => a.sortsBefore b = true :=
    (List.pairwise_map.mp (sort_sorted slots)).filter _
  refine List.Perm.eq_of_pairwise ?_ hsorted (List.pairwise_map.mp (sort_sorted _)) hperm
  intro a b ha hb hab hba
  have hids : a.ids = b.ids :=
    (mem_withSet.mp ha).2.trans (mem_withSet.mp (mem_sort.mp hb)).2.symm
  simp only [sortsBefore, Span.sortsBefore, Bool.or_eq_true, Bool.and_eq_true,
    decide_eq_true_eq] at hab hba
  exact Slot.ext (by omega) (by omega) hids

/-- The slot that is lengthened is found among those with the set, as if there were no others. -/
theorem lengthen?_withSet (s : Slot) (merged : List Slot) :
    lengthen? s (withSet s.ids merged) = (lengthen? s merged).map (withSet s.ids) := by
  induction merged with
  | nil => rfl
  | cons m rest ih =>
    by_cases hm : m.ids = s.ids
    · simp only [withSet, List.filter_cons, hm, decide_true, if_true, lengthen?]
      split <;> simp [withSet]
    · have hother : withSet s.ids (m :: rest) = withSet s.ids rest := by simp [withSet, hm]
      rw [hother, ih, lengthen?, if_neg hm, Option.map_map]
      congr 1
      funext later
      simp [withSet, hm]

/-- Lengthening a slot leaves the slots with other sets alone. -/
theorem withSet_of_lengthen? {s : Slot} {merged later : List Slot} (hids : s.ids ≠ ids)
    (h : lengthen? s merged = some later) : withSet ids later = withSet ids merged := by
  induction merged generalizing later with
  | nil => cases h
  | cons m rest ih =>
    unfold lengthen? at h
    by_cases hm : m.ids = s.ids
    · rw [if_pos hm] at h
      split at h
      · cases h
        simp [withSet, hm, hids]
      · cases h
    · rw [if_neg hm] at h
      obtain ⟨later, hlater, rfl⟩ := Option.map_eq_some_iff.mp h
      have hrest : withSet ids later = withSet ids rest := ih hlater
      simp only [withSet, List.filter_cons] at hrest ⊢
      rw [hrest]

theorem withSet_addExact (ids : IdSet) (merged : List Slot) (s : Slot) :
    withSet ids (addExact merged s) =
      if s.ids = ids then addExact (withSet ids merged) s else withSet ids merged := by
  unfold addExact
  by_cases hids : s.ids = ids
  · subst hids
    rw [if_pos rfl, lengthen?_withSet]
    cases lengthen? s merged with
    | none => simp [withSet]
    | some later => rfl
  · rw [if_neg hids]
    cases h : lengthen? s merged with
    | none => simp [withSet, hids]
    | some later => exact withSet_of_lengthen? hids h

theorem withSet_foldl_addExact (ids : IdSet) (slots merged : List Slot) :
    withSet ids (slots.foldl addExact merged) =
      (withSet ids slots).foldl addExact (withSet ids merged) := by
  induction slots generalizing merged with
  | nil => rfl
  | cons s rest ih =>
    rw [List.foldl_cons, ih, withSet_addExact]
    by_cases hids : s.ids = ids <;> simp [withSet, hids]

theorem withSet_mergeBySet (ids : IdSet) (slots : List Slot) :
    withSet ids (mergeBySet slots) = mergeBySet (withSet ids slots) := by
  unfold mergeBySet
  rw [withSet, List.filter_reverse]
  exact congrArg _ (withSet_foldl_addExact ids slots [])

/-- Merged by set, the slots with one set are the merged spans of the slots with that set. -/
theorem withSet_normalize (ids : IdSet) (slots : List Slot) :
    withSet ids (normalize true slots) =
      tagged ids (Span.coalesce (spansOf (withSet ids slots))) := by
  have halone : withSet ids (normalize true slots) = normalize true (withSet ids slots) := by
    change withSet ids (sort (mergeBySet (sort slots))) = sort (mergeBySet (sort (withSet ids slots)))
    rw [withSet_sort, withSet_mergeBySet, withSet_sort]
  rw [halone, withSet_eq_tagged ids slots, normalize_tagged, spansOf_tagged]

/-- Slots that come in another order are merged into the same slots. -/
theorem normalize_by_set_perm (hperm : other.Perm slots) :
    (normalize true other).Perm (normalize true slots) := by
  rw [List.perm_iff_count]
  intro s
  have hcount : ∀ xs : List Slot, (withSet s.ids xs).count s = xs.count s := fun xs =>
    List.count_filter (by simp)
  have hspans : (spansOf (withSet s.ids other)).Perm (spansOf (withSet s.ids slots)) :=
    (hperm.filter _).map _
  rw [← hcount, ← hcount (normalize true slots), withSet_normalize, withSet_normalize,
    Span.coalesce_perm hspans]

/-- Every two slots with one set have a gap between them. -/
def Gaps (slots : List Slot) : Prop := slots.Pairwise fun a b => a.ids = b.ids → a.stop < b.start

theorem gaps_of_separated (h : ∀ ids, Separated (withSet ids slots)) : Gaps slots := by
  apply List.pairwise_iff_forall_sublist.mpr
  intro a b hab hids
  have hpair : Separated (withSet a.ids [a, b]) := (h a.ids).sublist (hab.filter _)
  simpa [Separated, withSet, hids] using hpair

theorem lengthen?_eq_none {s : Slot} {merged : List Slot}
    (h : ∀ m ∈ merged, m.ids = s.ids → m.stop < s.start) : lengthen? s merged = none := by
  induction merged with
  | nil => rfl
  | cons m rest ih =>
    have hm := h m (by simp)
    rw [lengthen?, ih fun x hx => h x (List.mem_cons_of_mem _ hx)]
    by_cases hids : m.ids = s.ids
    · have := hm hids
      rw [if_pos hids, if_neg (by omega)]
    · rw [if_neg hids]
      rfl

/-- Slots with gaps are put before one another, and none is lengthened. -/
theorem foldl_addExact_of_gaps (slots merged : List Slot) (h : Gaps (merged.reverse ++ slots)) :
    slots.foldl addExact merged = slots.reverse ++ merged := by
  induction slots generalizing merged with
  | nil => rfl
  | cons s rest ih =>
    have hnone : lengthen? s merged = none := lengthen?_eq_none fun m hm =>
      (List.pairwise_append.mp h).2.2 m (List.mem_reverse.mpr hm) s (by simp)
    rw [List.foldl_cons, addExact, hnone, List.reverse_cons, List.append_assoc]
    exact ih (s :: merged) (by simpa using h)

theorem normalize_by_set_of_gaps (hsorted : Sorted (spansOf slots)) (h : Gaps slots) :
    normalize true slots = slots := by
  have hmerged : mergeBySet slots = slots := by
    rw [mergeBySet, foldl_addExact_of_gaps slots [] h, List.append_nil, List.reverse_reverse]
  change sort (mergeBySet (sort slots)) = slots
  rw [sort_of_sorted hsorted, hmerged, sort_of_sorted hsorted]

/-! ## Looking further back -/

/-- Lengthen the newest of the slots that have the set of `s` and reach its start, wherever it
stands: the search goes on behind a slot with that set that does not reach so far. -/
def lengthenAny? (s : Slot) : List Slot → Option (List Slot)
  | [] => none
  | m :: rest =>
    if m.ids = s.ids ∧ s.start ≤ m.stop then
      some (⟨⟨m.start, max m.stop s.stop⟩, m.ids⟩ :: rest)
    else (lengthenAny? s rest).map (m :: ·)

/-- Take one more slot into a list kept newest first, with the search that goes on. -/
def addAny (merged : List Slot) (s : Slot) : List Slot :=
  match lengthenAny? s merged with
  | some merged => merged
  | none => s :: merged

theorem lengthenAny?_eq_none {s : Slot} {merged : List Slot}
    (h : ∀ m ∈ merged, m.ids = s.ids → m.stop < s.start) : lengthenAny? s merged = none := by
  induction merged with
  | nil => rfl
  | cons m rest ih =>
    have hm := h m (by simp)
    rw [lengthenAny?, ih fun x hx => h x (List.mem_cons_of_mem _ hx), if_neg (by grind)]
    rfl

/-- Behind a slot that does not reach so far, all slots with its set stop before it starts. -/
theorem lengthenAny?_eq {s : Slot} {merged : List Slot} (hgaps : Gaps merged.reverse)
    (hstart : ∀ m ∈ merged, m.start ≤ s.start) : lengthenAny? s merged = lengthen? s merged := by
  induction merged with
  | nil => rfl
  | cons m rest ih =>
    rw [List.reverse_cons, Gaps, List.pairwise_append] at hgaps
    obtain ⟨hrest, _, holder⟩ := hgaps
    have hm : m.start ≤ s.start := hstart m (by simp)
    have ih := ih hrest fun x hx => hstart x (List.mem_cons_of_mem _ hx)
    unfold lengthenAny? lengthen?
    by_cases hids : m.ids = s.ids
    · by_cases hreach : s.start ≤ m.stop
      · rw [if_pos ⟨hids, hreach⟩, if_pos hids, if_pos hreach]
      · have hnone : lengthenAny? s rest = none := lengthenAny?_eq_none fun older hmem hset => by
          have := holder older (List.mem_reverse.mpr hmem) m (by simp) (hset.trans hids.symm)
          omega
        rw [if_neg fun h => hreach h.2, if_pos hids, if_neg hreach, hnone]
        rfl
    · rw [if_neg fun h => hids h.1, if_neg hids, ih]

theorem withSet_mergeBySet_eq (ids : IdSet) (slots : List Slot) :
    withSet ids (mergeBySet slots) = tagged ids (Span.merge (spansOf (withSet ids slots))) := by
  rw [withSet_mergeBySet, withSet_eq_tagged ids slots, mergeBySet_tagged, spansOf_tagged]

theorem gaps_mergeBySet (h : ByStart (spansOf slots)) : Gaps (mergeBySet slots) := by
  apply gaps_of_separated
  intro ids
  have hset : ByStart (spansOf (withSet ids slots)) := h.sublist (List.filter_sublist.map _)
  rw [withSet_mergeBySet_eq, separated_iff, spansOf_tagged]
  exact Span.merge_apart hset

/-- Every slot merged by set starts as one of the slots it is made of. -/
theorem exists_start_of_mergeBySet {m : Slot} (hm : m ∈ mergeBySet slots) :
    ∃ s ∈ slots, s.start = m.start := by
  have hspan : m.toSpan ∈ spansOf (withSet m.ids (mergeBySet slots)) :=
    List.mem_map_of_mem (mem_withSet.mpr ⟨hm, rfl⟩)
  rw [withSet_mergeBySet_eq, spansOf_tagged] at hspan
  obtain ⟨y, hy, hstart, _⟩ := Span.mem_merge hspan
  obtain ⟨s, hs, rfl⟩ := List.mem_map.mp hy
  exact ⟨s, (mem_withSet.mp hs).1, hstart⟩

/-- Slots in the order of their starts are merged alike if the search goes on: what was merged so
far keeps its gaps, and starts no later than the next slot. -/
theorem foldl_addAny_eq (later earlier : List Slot) (h : ByStart (spansOf (earlier ++ later))) :
    later.foldl addAny (earlier.foldl addExact []) =
      later.foldl addExact (earlier.foldl addExact []) := by
  induction later generalizing earlier with
  | nil => rfl
  | cons s rest ih =>
    have hsplit := List.pairwise_append.mp (List.pairwise_map.mp h)
    have hgaps : Gaps (earlier.foldl addExact []).reverse :=
      gaps_mergeBySet (List.pairwise_map.mpr hsplit.1)
    have hstart : ∀ m ∈ earlier.foldl addExact [], m.start ≤ s.start := by
      intro m hm
      obtain ⟨x, hx, hxm⟩ := exists_start_of_mergeBySet (List.mem_reverse.mpr hm)
      have := hsplit.2.2 x hx s (by simp)
      omega
    have hstep : addAny (earlier.foldl addExact []) s = addExact (earlier.foldl addExact []) s := by
      have hsame := lengthenAny?_eq hgaps hstart
      cases hfound : lengthen? s (earlier.foldl addExact []) <;>
        simp only [addAny, addExact, hsame, hfound]
    have hnext : addExact (earlier.foldl addExact []) s = (earlier ++ [s]).foldl addExact [] := by
      rw [List.foldl_append, List.foldl_cons, List.foldl_nil]
    rw [List.foldl_cons, List.foldl_cons, hstep, hnext]
    exact ih (earlier ++ [s]) (by simpa using h)

/-- Looking further back for a slot to lengthen would find nothing. -/
theorem mergeBySet_eq (h : ByStart (spansOf slots)) :
    mergeBySet slots = (slots.foldl addAny []).reverse :=
  congrArg List.reverse (foldl_addAny_eq slots [] h).symm

/-! ## The laws -/

/-- What a list is when it is merged by time: its slots stand in order with gaps between them, they
cover what the slots that were merged cover, and each has the resources of those inside it. -/
structure MergedByTime (slots merged : List Slot) : Prop where
  proper : AllProper (spansOf merged)
  separated : Separated merged
  covers : ∀ t, CoveredBySlots merged t ↔ CoveredBySlots slots t
  ids : ∀ m ∈ merged, ∀ id,
    id ∈ m.ids ↔ ∃ s ∈ slots, m.contains s.toSpan = true ∧ id ∈ s.ids

/-- What a list is when it is merged by set: its slots stand in order, and those with one set, for
any set, have gaps between them and cover what the slots with that set cover. -/
structure MergedBySet (slots merged : List Slot) : Prop where
  proper : AllProper (spansOf merged)
  sorted : Sorted (spansOf merged)
  separated : ∀ ids, Separated (withSet ids merged)
  covers : ∀ ids t, CoveredBySlots (withSet ids merged) t ↔ CoveredBySlots (withSet ids slots) t

/-- Lists with the same slots, in an order that differs at most among slots with equal spans. -/
structure SameButForTies (a b : List Slot) : Prop where
  perm : a.Perm b
  spans : spansOf a = spansOf b

theorem mergedByTime (h : AllProper (spansOf slots)) :
    MergedByTime slots (normalize false slots) where
  proper := by
    rw [spansOf_normalize]
    exact Span.coalesce_proper h
  separated := by
    rw [separated_iff, spansOf_normalize]
    exact Span.coalesce_apart _
  covers t := by
    rw [coveredBySlots_iff, coveredBySlots_iff, spansOf_normalize, Span.coveredBy_coalesce]
  ids _ hm _ := mem_ids_normalize h hm

theorem mergedBySet (h : AllProper (spansOf slots)) :
    MergedBySet slots (normalize true slots) where
  proper span hspan := by
    obtain ⟨m, hm, rfl⟩ := List.mem_map.mp hspan
    have hset : m.toSpan ∈ spansOf (withSet m.ids (normalize true slots)) :=
      List.mem_map_of_mem (mem_withSet.mpr ⟨hm, rfl⟩)
    rw [withSet_normalize, spansOf_tagged] at hset
    exact Span.coalesce_proper (withSet_proper h _) _ hset
  sorted := sort_sorted _
  separated ids := by
    rw [withSet_normalize, separated_iff, spansOf_tagged]
    exact Span.coalesce_apart _
  covers ids t := by
    rw [withSet_normalize, coveredBySlots_iff, coveredBySlots_iff, spansOf_tagged,
      Span.coveredBy_coalesce]

/-- Of slots that each hold an instant both ways of merging make a normal list. The order of the
slots shows nowhere, or, merged by set, in the order of slots with equal spans alone, and a normal
list is left as it is. For a slot to lengthen it is enough to look at the newest with its set. -/
theorem a_normal_list_covers_what_it_was_made_of (h : AllProper (spansOf slots)) :
    MergedByTime slots (normalize false slots) ∧ MergedBySet slots (normalize true slots) ∧
      (∀ other, other.Perm slots → normalize false other = normalize false slots ∧
        SameButForTies (normalize true other) (normalize true slots)) ∧
      (∀ exact, normalize exact (normalize exact slots) = normalize exact slots) ∧
      normalize true slots = sort ((sort slots).foldl addAny []).reverse := by
  have htime := mergedByTime h
  have hset := mergedBySet h
  refine ⟨htime, hset, fun other hperm => ⟨normalize_by_time_perm h hperm, ?_⟩, ?_, ?_⟩
  · have hmerged := normalize_by_set_perm hperm
    exact ⟨hmerged, Span.eq_of_sorted_perm (sort_sorted _) (sort_sorted _) (hmerged.map _)⟩
  · intro exact
    cases exact with
    | false =>
      have hsorted := sorted_of_apart htime.proper ((separated_iff _).mp htime.separated)
      exact normalize_by_time_of_separated hsorted htime.separated
    | true => exact normalize_by_set_of_gaps hset.sorted (gaps_of_separated hset.separated)
  · rw [← mergeBySet_eq (Span.byStart_of_sorted (sort_sorted slots))]
    rfl

/-- Two slots of the first resource meet across one of the second. Two that share a span and have
other sets stay apart, in the order in which they came. -/
theorem slots_of_one_set_meet_across_another :
    let a := IdSet.singleton 1
    let b := IdSet.singleton 2
    let slots : List Slot :=
      [⟨⟨300, 400⟩, b⟩, ⟨⟨90, 200⟩, a⟩, ⟨⟨50, 120⟩, b⟩, ⟨⟨300, 400⟩, a⟩, ⟨⟨0, 100⟩, a⟩]
    let bySet : List Slot := [⟨⟨0, 200⟩, a⟩, ⟨⟨50, 120⟩, b⟩, ⟨⟨300, 400⟩, b⟩, ⟨⟨300, 400⟩, a⟩]
    let turned : List Slot := [⟨⟨0, 200⟩, a⟩, ⟨⟨50, 120⟩, b⟩, ⟨⟨300, 400⟩, a⟩, ⟨⟨300, 400⟩, b⟩]
    AllProper (spansOf slots) ∧
      MergedByTime slots [⟨⟨0, 200⟩, a.union b⟩, ⟨⟨300, 400⟩, a.union b⟩] ∧
      MergedBySet slots bySet ∧ normalize true slots.reverse = turned ∧
      SameButForTies turned bySet ∧ normalize true bySet = bySet := by
  intro a b slots bySet turned
  have hproper : AllProper (spansOf slots) := by decide
  have hsort : sort slots =
      [⟨⟨0, 100⟩, a⟩, ⟨⟨50, 120⟩, b⟩, ⟨⟨90, 200⟩, a⟩, ⟨⟨300, 400⟩, b⟩, ⟨⟨300, 400⟩, a⟩] := by
    simp [slots, sort, List.mergeSort, sortsBefore, Span.sortsBefore]
  have hsort' : sort slots.reverse =
      [⟨⟨0, 100⟩, a⟩, ⟨⟨50, 120⟩, b⟩, ⟨⟨90, 200⟩, a⟩, ⟨⟨300, 400⟩, a⟩, ⟨⟨300, 400⟩, b⟩] := by
    simp [slots, sort, List.mergeSort, sortsBefore, Span.sortsBefore]
  have htime : normalize false slots = [⟨⟨0, 200⟩, a.union b⟩, ⟨⟨300, 400⟩, a.union b⟩] := by
    rw [normalize, hsort]
    decide
  have hset : normalize true slots = bySet := by
    rw [normalize, hsort]
    exact sort_of_sorted (by decide : Sorted (spansOf bySet))
  have hturned : normalize true slots.reverse = turned := by
    rw [normalize, hsort']
    exact sort_of_sorted (by decide : Sorted (spansOf turned))
  obtain ⟨hbyTime, hbySet, hperm, hagain, _⟩ := a_normal_list_covers_what_it_was_made_of hproper
  have hties := (hperm slots.reverse (List.reverse_perm slots)).2
  have hagain := hagain true
  rw [htime] at hbyTime
  rw [hset] at hbySet hties hagain
  rw [hturned] at hties
  exact ⟨hproper, hbyTime, hbySet, hturned, hties, hagain⟩

end Slot

end FreeTime
