-- The laws of shared time. The walk over two lists leaves a slot as soon as the other list has
-- reached its stop, so it looks at few pairs of slots. Where each list is free of overlaps it finds
-- what looking at all pairs would find, in the same order; so it does not matter which list comes
-- first, or how three lists are put together.
import FreeTime.Proofs.Slots

namespace FreeTime

namespace IdSet

theorem union_comm (a b : IdSet) : a.union b = b.union a :=
  ext_mem fun x => by simp [or_comm]

theorem union_assoc (a b c : IdSet) : (a.union b).union c = a.union (b.union c) :=
  ext_mem fun x => by simp [or_assoc]

end IdSet

namespace Slot

variable {a b c : Slot} {as bs cs : List Slot}

/-! ## Two slots -/

theorem intersection_eq_some : a.intersection b = some c ↔
    max a.start b.start < min a.stop b.stop ∧
      c = ⟨⟨max a.start b.start, min a.stop b.stop⟩, a.ids.union b.ids⟩ := by
  unfold intersection Span.intersection
  by_cases h : max a.start b.start < min a.stop b.stop
  · simp [h, eq_comm]
  · simp [h]

/-- Slots that follow one another share nothing. -/
theorem intersection_eq_none_of_le (h : a.stop ≤ b.start) : a.intersection b = none := by
  apply Option.eq_none_iff_forall_not_mem.mpr
  intro c hc
  obtain ⟨hlt, _⟩ := intersection_eq_some.mp hc
  omega

theorem intersection_comm (a b : Slot) : a.intersection b = b.intersection a := by
  apply Option.ext
  intro c
  rw [intersection_eq_some, intersection_eq_some, Int.max_comm, Int.min_comm, IdSet.union_comm]

/-- What three slots share is the same whichever two are looked at first. -/
theorem intersection_assoc (a b c : Slot) :
    (a.intersection b).bind (·.intersection c) = (b.intersection c).bind a.intersection := by
  apply Option.ext
  intro d
  simp only [Option.bind_eq_some_iff, intersection_eq_some]
  constructor
  · rintro ⟨ab, ⟨hab, rfl⟩, hlt, rfl⟩
    simp only at hlt ⊢
    exact ⟨_, ⟨by omega, rfl⟩, by simp only; omega,
      Slot.ext (by simp only; omega) (by simp only; omega) (IdSet.union_assoc _ _ _)⟩
  · rintro ⟨bc, ⟨hbc, rfl⟩, hlt, rfl⟩
    simp only at hlt ⊢
    exact ⟨_, ⟨by omega, rfl⟩, by simp only; omega,
      Slot.ext (by simp only; omega) (by simp only; omega) (IdSet.union_assoc _ _ _).symm⟩

/-! ## All pairs -/

/-- What any slot of one list shares with any slot of the other, pair by pair. -/
def sharedPairs (as bs : List Slot) : List Slot := as.flatMap fun a => bs.filterMap a.intersection

/-- The slot that is left behind stops before every slot of the other list that the walk has not
come to yet, so there is nothing that it shares with them. -/
theorem intersect_eq_sharedPairs (ha : Disjoint as) (hb : Disjoint bs) :
    intersect as bs = sharedPairs as bs := by
  induction as, bs using intersect.induct with
  | case1 a as b bs ih1 ih2 =>
    obtain ⟨hfa, hra⟩ := List.pairwise_cons.mp ha
    obtain ⟨hfb, hrb⟩ := List.pairwise_cons.mp hb
    rw [intersect.eq_1]
    by_cases hstop : a.stop ≤ b.stop
    · have hnone : bs.filterMap a.intersection = [] := by
        apply List.filterMap_eq_nil_iff.mpr
        intro b' hb'
        have := hfb b' hb'
        exact intersection_eq_none_of_le (by omega)
      rw [if_pos hstop, ih1 hra hb, sharedPairs, sharedPairs, List.flatMap_cons,
        List.filterMap_cons, hnone]
      cases a.intersection b <;> rfl
    · have hnone : ∀ a' ∈ as, (b :: bs).filterMap a'.intersection = bs.filterMap a'.intersection := by
        intro a' ha'
        have := hfa a' ha'
        rw [List.filterMap_cons, intersection_comm, intersection_eq_none_of_le (by omega)]
      have hlater : (as.flatMap fun a' => (b :: bs).filterMap a'.intersection) =
          as.flatMap fun a' => bs.filterMap a'.intersection := by
        rw [List.flatMap_def, List.flatMap_def, List.map_congr_left hnone]
      rw [if_neg hstop, ih2 ha hrb, sharedPairs, sharedPairs, List.flatMap_cons,
        List.flatMap_cons, hlater, List.filterMap_cons]
      cases a.intersection b <;> rfl
  | case2 bs => rw [intersect.eq_2, sharedPairs, List.flatMap_nil]
  | case3 as hne =>
    rw [intersect.eq_3 as hne]
    simp [sharedPairs]

theorem mem_intersect_iff (ha : Disjoint as) (hb : Disjoint bs) :
    c ∈ intersect as bs ↔ ∃ a ∈ as, ∃ b ∈ bs, a.intersection b = some c := by
  rw [intersect_eq_sharedPairs ha hb]
  simp [sharedPairs]

theorem disjoint_intersect (ha : Disjoint as) (hb : Disjoint bs) : Disjoint (intersect as bs) := by
  induction as, bs using intersect.induct with
  | case1 a as b bs ih1 ih2 =>
    obtain ⟨hfa, hra⟩ := List.pairwise_cons.mp ha
    obtain ⟨hfb, hrb⟩ := List.pairwise_cons.mp hb
    rw [intersect.eq_1]
    refine List.pairwise_append.mpr ⟨?_, ?_, ?_⟩
    · cases a.intersection b <;> simp
    · split
      · exact ih1 hra hb
      · exact ih2 ha hrb
    · intro c hc d hd
      obtain ⟨_, rfl⟩ := intersection_eq_some.mp (Option.mem_toList.mp hc)
      simp only
      split at hd
      · obtain ⟨a', ha', _, _, hd⟩ := mem_intersect hd
        have := (intersection_spec hd).2
        have := hfa a' ha'
        omega
      · obtain ⟨_, _, b', hb', hd⟩ := mem_intersect hd
        have := (intersection_spec hd).2
        have := hfb b' hb'
        omega
  | case2 bs =>
    rw [intersect.eq_2]
    exact List.Pairwise.nil
  | case3 as hne =>
    rw [intersect.eq_3 as hne]
    exact List.Pairwise.nil

/-! ## One list for what is shared -/

theorem starts_ascending (hp : AllProper (spansOf as)) (ha : Disjoint as) :
    as.Pairwise fun a b => a.start < b.start := by
  apply List.Pairwise.imp_of_mem ?_ ha
  intro a b hmem _ hab
  have hproper : a.start < a.stop := hp _ (List.mem_map_of_mem hmem)
  exact Int.lt_of_lt_of_le hproper hab

theorem nodup_of_ascending (h : as.Pairwise fun a b => a.start < b.start) : as.Nodup := by
  apply h.imp
  intro a b hab heq
  rw [heq] at hab
  omega

/-- Slots that hold an instant each and follow one another are known without their order. -/
theorem eq_of_mem_iff (hpa : AllProper (spansOf as)) (hpb : AllProper (spansOf bs))
    (ha : Disjoint as) (hb : Disjoint bs) (h : ∀ s, s ∈ as ↔ s ∈ bs) : as = bs := by
  have hsa := starts_ascending hpa ha
  have hsb := starts_ascending hpb hb
  have hperm : as.Perm bs :=
    (List.perm_ext_iff_of_nodup (nodup_of_ascending hsa) (nodup_of_ascending hsb)).mpr h
  exact List.Perm.eq_of_pairwise (fun a b _ _ hab hba => by omega) hsa hsb hperm

theorem intersect_comm (ha : Disjoint as) (hb : Disjoint bs) :
    intersect as bs = intersect bs as := by
  apply eq_of_mem_iff (intersect_proper _ _) (intersect_proper _ _) (disjoint_intersect ha hb)
    (disjoint_intersect hb ha)
  intro c
  rw [mem_intersect_iff ha hb, mem_intersect_iff hb ha]
  constructor
  · rintro ⟨a, hamem, b, hbmem, hc⟩
    exact ⟨b, hbmem, a, hamem, intersection_comm a b ▸ hc⟩
  · rintro ⟨b, hbmem, a, hamem, hc⟩
    exact ⟨a, hamem, b, hbmem, intersection_comm b a ▸ hc⟩

theorem intersect_assoc (ha : Disjoint as) (hb : Disjoint bs) (hc : Disjoint cs) :
    intersect (intersect as bs) cs = intersect as (intersect bs cs) := by
  have hab := disjoint_intersect ha hb
  have hbc := disjoint_intersect hb hc
  apply eq_of_mem_iff (intersect_proper _ _) (intersect_proper _ _) (disjoint_intersect hab hc)
    (disjoint_intersect ha hbc)
  intro d
  rw [mem_intersect_iff hab hc, mem_intersect_iff ha hbc]
  simp only [mem_intersect_iff ha hb, mem_intersect_iff hb hc]
  have hthree : ∀ a b c : Slot, (∃ ab, a.intersection b = some ab ∧ ab.intersection c = some d) ↔
      ∃ bc, b.intersection c = some bc ∧ a.intersection bc = some d := fun a b c => by
    rw [← Option.bind_eq_some_iff, ← Option.bind_eq_some_iff, intersection_assoc]
  constructor
  · rintro ⟨ab, ⟨a, hamem, b, hbmem, hab⟩, c, hcmem, hd⟩
    obtain ⟨bc, hbc, hd⟩ := (hthree a b c).mp ⟨ab, hab, hd⟩
    exact ⟨a, hamem, bc, ⟨b, hbmem, c, hcmem, hbc⟩, hd⟩
  · rintro ⟨a, hamem, bc, ⟨b, hbmem, c, hcmem, hbc⟩, hd⟩
    obtain ⟨ab, hab, hd⟩ := (hthree a b c).mpr ⟨bc, hbc, hd⟩
    exact ⟨ab, ⟨a, hamem, b, hbmem, hab⟩, c, hcmem, hd⟩

/-! ## The laws -/

/-- Two lists in the order of their starts share slots that each hold an instant, and these cover
what both lists cover. Where besides the slots of each list follow one another, the shared slots
are what all pairs share, each pair once and in the order of time; they follow one another too, and
it does not matter which list comes first or how three lists are put together. -/
theorem two_lists_share_what_both_cover (ha : ByStart (spansOf as)) (hb : ByStart (spansOf bs)) :
    AllProper (spansOf (intersect as bs)) ∧
      (∀ t, CoveredBySlots (intersect as bs) t ↔ CoveredBySlots as t ∧ CoveredBySlots bs t) ∧
      (Disjoint as → Disjoint bs →
        intersect as bs = sharedPairs as bs ∧ ByStart (spansOf (intersect as bs)) ∧
          Disjoint (intersect as bs) ∧ intersect as bs = intersect bs as ∧
          ∀ cs, Disjoint cs →
            intersect (intersect as bs) cs = intersect as (intersect bs cs)) := by
  refine ⟨intersect_proper as bs, fun t => ?_, fun hda hdb => ?_⟩
  · simp only [coveredBySlots_iff]
    exact coveredBy_intersect ha hb t
  · exact ⟨intersect_eq_sharedPairs hda hdb, intersect_byStart ha hb,
      disjoint_intersect hda hdb, intersect_comm hda hdb,
      fun cs hdc => intersect_assoc hda hdb hdc⟩

/-- Slots that touch give pieces that touch, and a third list may be met before or after. -/
theorem touching_slots_share_touching_pieces :
    let a := IdSet.singleton 1
    let b := IdSet.singleton 2
    let as : List Slot := [⟨⟨0, 100⟩, a⟩, ⟨⟨100, 200⟩, a⟩, ⟨⟨300, 400⟩, a⟩]
    let bs : List Slot := [⟨⟨50, 150⟩, b⟩, ⟨⟨150, 350⟩, b⟩]
    let cs : List Slot := [⟨⟨0, 120⟩, b⟩, ⟨⟨140, 330⟩, b⟩]
    let shared : List Slot := [⟨⟨50, 100⟩, a.union b⟩, ⟨⟨100, 150⟩, a.union b⟩,
      ⟨⟨150, 200⟩, a.union b⟩, ⟨⟨300, 350⟩, a.union b⟩]
    ByStart (spansOf as) ∧ ByStart (spansOf bs) ∧ Disjoint as ∧ Disjoint bs ∧ Disjoint cs ∧
      shared = sharedPairs as bs ∧ Disjoint shared ∧ shared = intersect bs as ∧
      (∀ t, CoveredBySlots shared t ↔ CoveredBySlots as t ∧ CoveredBySlots bs t) ∧
      intersect shared cs = intersect as (intersect bs cs) := by
  intro a b as bs cs shared
  have hsa : ByStart (spansOf as) := by decide
  have hsb : ByStart (spansOf bs) := by decide
  have hda : Disjoint as := by decide
  have hdb : Disjoint bs := by decide
  have hdc : Disjoint cs := by decide
  have hshared : intersect as bs = shared := by cbv
  obtain ⟨_, hcovers, hapart⟩ := two_lists_share_what_both_cover hsa hsb
  obtain ⟨hpairs, _, hdisjoint, hcomm, hassoc⟩ := hapart hda hdb
  have hassoc := hassoc cs hdc
  rw [hshared] at hpairs hdisjoint hcomm hcovers hassoc
  exact ⟨hsa, hsb, hda, hdb, hdc, hpairs, hdisjoint, hcomm, hcovers, hassoc⟩

end Slot

end FreeTime
