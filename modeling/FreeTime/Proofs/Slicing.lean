-- The laws of slicing. The pieces of a slot are told by division: so many whole ones, and what is
-- left over. A cursor that moves on by one piece as long as another one fits comes to the same
-- pieces, if it can tell that no other one fits: for that the stop of one more piece has to be an
-- instant, too. The pieces follow one another from the start of the slot; what they leave uncovered at
-- its end is shorter than a piece, and nothing at all where the tail is kept.
import FreeTime.Calendar.Moment
import FreeTime.Proofs.Runs
import FreeTime.Proofs.Slots
import FreeTime.Proofs.Tiling
import FreeTime.Slot.Slicing

namespace FreeTime

namespace Slicing

open Slot (spansOf tagged)

variable {c : Slicing} {s : Slot}

/-- How many whole pieces a slot holds. -/
def wholePieces (c : Slicing) (s : Slot) : Nat := (s.duration / c.duration).toNat

/-- Where the whole pieces of a slot end. -/
def reached (c : Slicing) (s : Slot) : Int := s.start + c.wholePieces s * c.duration

/-- The whole pieces of a slot. -/
def whole (c : Slicing) (s : Slot) : List Slot :=
  tagged s.ids (row s.start c.duration (c.wholePieces s))

/-- What is left of a slot from an instant on, if tails are kept. -/
def tailFrom (c : Slicing) (s : Slot) (t : Int) : List Slot :=
  if c.keepsTail ∧ t < s.stop then [⟨⟨t, s.stop⟩, s.ids⟩] else []

/-- The pieces of one slot, one after the other from its start. -/
def pieces (c : Slicing) (s : Slot) : List Slot := c.whole s ++ c.tailFrom s (c.reached s)

/-- One piece more than fit into the slot would still stop at an instant. -/
def Tellable (c : Slicing) (s : Slot) : Prop := c.reached s + c.duration ≤ lastInstant

instance (c : Slicing) (s : Slot) : Decidable (c.Tellable s) :=
  inferInstanceAs (Decidable (_ ≤ _))

/-- A slot is cut into as many whole pieces as fit, which follow one another up to `reached`, and a
tail: the shorter piece that is left over, if tails are kept. -/
structure Cut (c : Slicing) (s : Slot) (whole tail : List Slot) (reached : Int) : Prop where
  count : (whole.length : Int) = s.duration / c.duration
  full : ∀ m ∈ whole, m.duration = c.duration
  follow : Tiles s.start reached (spansOf whole)
  inside : reached ≤ s.stop
  short : s.stop - reached < c.duration
  kept : c.keepsTail = true → ¬ c.duration ∣ s.duration →
    reached < s.stop ∧ tail = [⟨⟨reached, s.stop⟩, s.ids⟩]
  dropped : c.keepsTail = false ∨ c.duration ∣ s.duration → tail = []
  ids : ∀ m ∈ whole ++ tail, m.ids = s.ids

/-! ## Counting the pieces -/

theorem wholePieces_eq (hc : 0 < c.duration) (hs : s.Proper) :
    (c.wholePieces s : Int) = s.duration / c.duration := by
  have hs : s.start < s.stop := hs
  refine Int.toNat_of_nonneg (Int.ediv_nonneg ?_ (Int.le_of_lt hc))
  simp only [Span.duration]
  omega

/-- Past the whole pieces lies what the division leaves over. -/
theorem left_over (hc : 0 < c.duration) (hs : s.Proper) :
    s.stop - c.reached s = s.duration % c.duration := by
  have hsplit := Int.emod_add_ediv_mul s.duration c.duration
  rw [reached, wholePieces_eq hc hs]
  simp only [Span.duration] at hsplit ⊢
  omega

/-- The whole pieces fit into the slot, and one more would not. -/
theorem reached_bounds (hc : 0 < c.duration) (hs : s.Proper) :
    c.reached s ≤ s.stop ∧ s.stop - c.reached s < c.duration := by
  have hleft := left_over hc hs
  have hnonneg := Int.emod_nonneg s.duration (Int.ne_of_gt hc)
  have hshort := Int.emod_lt_of_pos s.duration hc
  omega

/-- Nothing is left over just when the length of a piece divides that of the slot. -/
theorem reached_lt_iff (hc : 0 < c.duration) (hs : s.Proper) :
    c.reached s < s.stop ↔ ¬ c.duration ∣ s.duration := by
  have hleft := left_over hc hs
  have hbounds := reached_bounds hc hs
  rw [Int.dvd_iff_emod_eq_zero]
  omega

/-! ## The pieces of a slot -/

/-- A cursor from which `count` more whole pieces fit finds these and the tail, if one piece more would
stop at an instant. -/
theorem cutFrom_eq (hc : 0 < c.duration) (count : Nat) (t : Int)
    (hfit : t + count * c.duration ≤ s.stop) (hfull : s.stop < t + (count + 1) * c.duration) :
    c.cutFrom s t =
      if t + (count + 1) * c.duration ≤ lastInstant then
        .ok (tagged s.ids (row t c.duration count) ++ c.tailFrom s (t + count * c.duration))
      else .error .panics := by
  -- On the pieces that fit; what the cursor does next is one of them.
  induction count generalizing t with
  | zero =>
    simp only [Int.natCast_zero, Int.zero_mul, Int.zero_add, Int.one_mul, Int.add_zero] at hfull ⊢
    rw [cutFrom, dif_neg (Int.not_le.mpr hfull)]
    by_cases hpast : lastInstant < t + c.duration
    · rw [if_pos hpast, if_neg (Int.not_le.mpr hpast)]
    · rw [if_neg hpast, if_pos (Int.not_lt.mp hpast)]
      unfold tailFrom
      split <;> rfl
  | succ count ih =>
    have hnonneg := Int.mul_nonneg (Int.natCast_nonneg count) (Int.le_of_lt hc)
    have hnext : t + (count + 1 : Nat) * c.duration = t + c.duration + count * c.duration := by
      rw [Int.natCast_add, Int.add_mul]
      omega
    have hmore : t + ((count + 1 : Nat) + 1) * c.duration =
        t + c.duration + (count + 1) * c.duration := by
      rw [Int.add_mul, Int.natCast_add, Int.add_mul, Int.add_mul]
      omega
    rw [hnext] at hfit ⊢
    rw [hmore] at hfull ⊢
    have hrest := ih (t + c.duration) hfit hfull
    rw [Int.add_mul] at hrest ⊢
    rw [cutFrom]
    split
    · rw [if_neg (by omega)]
    · rw [dif_pos (by omega), dif_pos (by omega), hrest, row_succ]
      split <;> rfl

/-- From its start a slot is cut into its pieces, if that can be told. -/
theorem cutFrom_start (hc : 0 < c.duration) (hs : s.Proper) :
    c.cutFrom s s.start = if c.Tellable s then .ok (c.pieces s) else .error .panics := by
  obtain ⟨hfit, hfull⟩ := reached_bounds hc hs
  unfold reached at hfit hfull
  have hmore : s.start + (c.wholePieces s + 1) * c.duration = c.reached s + c.duration := by
    rw [reached, Int.add_mul]
    omega
  rw [cutFrom_eq hc _ _ hfit (by rw [hmore, reached]; omega), hmore]
  rfl

theorem cut_pieces (hc : 0 < c.duration) (hs : s.Proper) :
    c.Cut s (c.whole s) (c.tailFrom s (c.reached s)) (c.reached s) where
  count := by
    rw [← wholePieces_eq hc hs]
    simp [whole, tagged, row]
  full m hm := by
    obtain ⟨span, hspan, rfl⟩ := List.mem_map.mp hm
    exact duration_of_mem_row hspan
  follow := by
    rw [whole, Slot.spansOf_tagged]
    exact tiles_row hc s.start (c.wholePieces s)
  inside := (reached_bounds hc hs).1
  short := (reached_bounds hc hs).2
  kept hkeeps hleft := by
    have hlt := (reached_lt_iff hc hs).mpr hleft
    exact ⟨hlt, by rw [tailFrom, if_pos ⟨hkeeps, hlt⟩]⟩
  dropped h := by
    rw [tailFrom, if_neg]
    rintro ⟨hkeeps, hlt⟩
    rcases h with hdrops | hdivides
    · rw [hkeeps] at hdrops
      cases hdrops
    · exact (reached_lt_iff hc hs).mp hlt hdivides
  ids m hm := by
    rcases List.mem_append.mp hm with hm | hm
    · obtain ⟨span, _, rfl⟩ := List.mem_map.mp hm
      rfl
    · unfold tailFrom at hm
      split at hm
      · rcases List.mem_singleton.mp hm with rfl
        rfl
      · cases hm

/-- The pieces follow one another up to the stop of the slot, or to the last whole piece where tails
are not kept. -/
theorem tiles_pieces (hc : 0 < c.duration) (hs : s.Proper) :
    Tiles s.start (if c.keepsTail then s.stop else c.reached s) (spansOf (c.pieces s)) := by
  have hcut := cut_pieces hc hs
  rw [pieces, spansOf, List.map_append]
  refine hcut.follow.append ?_
  unfold tailFrom
  cases c.keepsTail with
  | false => simp [Tiles]
  | true =>
    simp only [true_and, if_true]
    split
    · exact ⟨rfl, ‹_›, rfl⟩
    · exact Int.le_antisymm hcut.inside (Int.not_lt.mp ‹_›)

/-! ## Slices -/

/-- Slots are sliced into their pieces, in order, if that can be told of each of them. -/
theorem slice_eq (hc : 0 < c.duration) {slots : List Slot} (hs : AllProper (spansOf slots)) :
    c.slice slots =
      if ∀ s ∈ slots, c.Tellable s then .ok (slots.flatMap c.pieces) else .error .panics := by
  induction slots with
  | nil => rfl
  | cons s rest ih =>
    obtain ⟨hproper, hrest⟩ := List.forall_mem_cons.mp hs
    rw [slice, cutFrom_start hc hproper, ih hrest]
    by_cases hone : c.Tellable s
    · simp only [hone, List.forall_mem_cons, true_and, if_true]
      split <;> rfl
    · have hnone : ¬ ∀ x ∈ s :: rest, c.Tellable x := fun hall => hone (hall s (by simp))
      rw [if_neg hone, if_neg hnone]
      rfl

/-- Whatever is cut, into pieces of whatever length, nothing is refused, and all of it ends. -/
theorem cutFrom_eq_error {t : Int} {e : NoAnswer} (h : c.cutFrom s t = .error e) : e = .panics := by
  induction t using cutFrom.induct c s with
  | case1 t hpast =>
    rw [cutFrom, if_pos hpast] at h
    exact (Except.error.inj h).symm
  | case2 t hnot hfits hproper ih =>
    rw [cutFrom, if_neg hnot, dif_pos hfits, dif_pos hproper] at h
    rcases bind_eq_error.mp h with h | ⟨_, _, h⟩
    · exact ih h
    · cases h
  | case3 t hnot hfits himproper =>
    rw [cutFrom, if_neg hnot, dif_pos hfits, dif_neg himproper] at h
    exact (Except.error.inj h).symm
  | case4 t hnot hover hkept =>
    rw [cutFrom, if_neg hnot, dif_neg hover, if_pos hkept] at h
    cases h
  | case5 t hnot hover hdropped =>
    rw [cutFrom, if_neg hnot, dif_neg hover, if_neg hdropped] at h
    cases h

theorem slice_eq_error {slots : List Slot} {e : NoAnswer} (h : c.slice slots = .error e) :
    e = .panics := by
  induction slots with
  | nil => cases h
  | cons s rest ih =>
    rcases bind_eq_error.mp h with h | ⟨_, _, h⟩
    · exact cutFrom_eq_error h
    · rcases bind_eq_error.mp h with h | ⟨_, _, h⟩
      · exact ih h
      · cases h

theorem coveredBySlots_pieces (hc : 0 < c.duration) (hs : s.Proper) (t : Int) :
    CoveredBySlots (c.pieces s) t ↔
      s.start ≤ t ∧ t < if c.keepsTail then s.stop else c.reached s := by
  rw [Slot.coveredBySlots_iff, coveredBy_of_tiles (tiles_pieces hc hs)]

/-- With the tails kept, slicing covers what the slots cover. -/
theorem coveredBySlots_flatMap_pieces (hc : 0 < c.duration) (hkeeps : c.keepsTail = true)
    {slots : List Slot} (hs : AllProper (spansOf slots)) (t : Int) :
    CoveredBySlots (slots.flatMap c.pieces) t ↔ CoveredBySlots slots t := by
  have hpieces : ∀ s ∈ slots, (CoveredBySlots (c.pieces s) t ↔ s.Covers t) := fun s hmem => by
    rw [coveredBySlots_pieces hc (hs _ (List.mem_map_of_mem hmem)), hkeeps]
    rfl
  simp only [CoveredBySlots, List.mem_flatMap] at hpieces ⊢
  constructor
  · rintro ⟨m, ⟨s, hmem, hm⟩, ht⟩
    exact ⟨s, hmem, (hpieces s hmem).mp ⟨m, hm, ht⟩⟩
  · rintro ⟨s, hmem, ht⟩
    obtain ⟨m, hm, ht⟩ := (hpieces s hmem).mpr ht
    exact ⟨m, ⟨s, hmem, hm⟩, ht⟩

/-- A list of slots that hold an instant each is empty if it covers nothing. -/
theorem eq_nil_of_not_covered {slots : List Slot} (hs : AllProper (spansOf slots))
    (h : ∀ t, ¬ CoveredBySlots slots t) : slots = [] := by
  refine List.eq_nil_iff_forall_not_mem.mpr fun s hmem => ?_
  exact h s.start ⟨s, hmem, Int.le_refl _, hs _ (List.mem_map_of_mem hmem)⟩

theorem flatMap_pieces_eq_nil_iff (hc : 0 < c.duration) (hkeeps : c.keepsTail = true)
    {slots : List Slot} (hs : AllProper (spansOf slots)) :
    slots.flatMap c.pieces = [] ↔ slots = [] := by
  constructor
  · intro hnil
    refine eq_nil_of_not_covered hs fun t ht => ?_
    rw [← coveredBySlots_flatMap_pieces hc hkeeps hs, hnil] at ht
    obtain ⟨m, hm, _⟩ := ht
    cases hm
  · rintro rfl
    rfl

/-! ## The laws -/

/-- Where slots that each hold an instant are sliced into pieces of a positive length, the cursor
that cuts them comes to an end. It panics just if for some slot it would come past the last instant
before it finds that no other piece fits. Otherwise it cuts slot by slot and in order: each slot into
as many whole pieces as fit, and a shorter one just where a tail is left over and kept. With the tails
kept the pieces cover what the slots cover, so nothing is left just if there was nothing; without them
each slot is covered but for an end that is shorter than a piece. -/
theorem a_slot_is_cut_into_pieces_of_one_length (hc : 0 < c.duration) {slots : List Slot}
    (hs : AllProper (spansOf slots)) :
    let sliced := slots.flatMap c.pieces
    (c.slice slots = if ∀ s ∈ slots, c.Tellable s then .ok sliced else .error .panics) ∧
      (∀ s ∈ slots, ∃ whole tail reached,
        c.pieces s = whole ++ tail ∧ c.Cut s whole tail reached ∧
          (c.Tellable s ↔ reached + c.duration ≤ lastInstant)) ∧
      (c.keepsTail = true →
        (∀ t, CoveredBySlots sliced t ↔ CoveredBySlots slots t) ∧ (sliced = [] ↔ slots = [])) ∧
      (c.keepsTail = false → ∀ s ∈ slots, ∃ reached, s.stop - reached < c.duration ∧
        ∀ t, s.Covers t → (CoveredBySlots (c.pieces s) t ↔ t < reached)) := by
  have hproper : ∀ s ∈ slots, s.Proper := fun s hmem => hs _ (List.mem_map_of_mem hmem)
  refine ⟨slice_eq hc hs, fun s hmem => ?_, fun hkeeps => ?_, fun hdrops s hmem => ?_⟩
  · exact ⟨_, _, _, rfl, cut_pieces hc (hproper s hmem), Iff.rfl⟩
  · exact ⟨coveredBySlots_flatMap_pieces hc hkeeps hs, flatMap_pieces_eq_nil_iff hc hkeeps hs⟩
  · refine ⟨c.reached s, (reached_bounds hc (hproper s hmem)).2, fun t ht => ?_⟩
    rw [coveredBySlots_pieces hc (hproper s hmem), hdrops]
    exact ⟨fun h => h.2, fun h => ⟨ht.1, h⟩⟩

/-- An hour and ten minutes, and an hour, in pieces of half an hour: the tail is kept, and no tail is
left where the pieces fit. -/
theorem seventy_minutes_leave_a_tail_of_ten :
    let half : Slicing := ⟨30 * minuteMs, true⟩
    let minutes (start stop : Int) : Span := ⟨start * minuteMs, stop * minuteMs⟩
    let a := IdSet.singleton 1
    let b := IdSet.singleton 2
    let slots : List Slot := [⟨minutes 0 70, a⟩, ⟨minutes 60 120, b⟩]
    let pieces : List Slot := [⟨minutes 0 30, a⟩, ⟨minutes 30 60, a⟩, ⟨minutes 60 70, a⟩,
      ⟨minutes 60 90, b⟩, ⟨minutes 90 120, b⟩]
    0 < half.duration ∧ AllProper (spansOf slots) ∧ half.slice slots = .ok pieces ∧
      ∀ t, CoveredBySlots pieces t ↔ CoveredBySlots slots t := by
  intro half minutes a b slots pieces
  have hc : 0 < half.duration := by decide
  have hs : AllProper (spansOf slots) := by decide
  have hpieces : slots.flatMap half.pieces = pieces := by decide +kernel
  have htell : ∀ s ∈ slots, half.Tellable s := by decide +kernel
  obtain ⟨hslice, _, hkept, _⟩ := a_slot_is_cut_into_pieces_of_one_length hc hs
  rw [if_pos htell, hpieces] at hslice
  have hcovers := (hkept rfl).1
  rw [hpieces] at hcovers
  exact ⟨hc, hs, hslice, hcovers⟩

/-- A slot up to the last instant, in pieces of a little more than half of it. One piece fits, and
before the cursor finds that no other one does it is past the last instant. -/
theorem the_last_instant_cannot_be_passed :
    let c : Slicing := ⟨4611686018427387904, true⟩
    let slot : Slot := ⟨⟨0, lastInstant⟩, .singleton 1⟩
    0 < c.duration ∧ slot.Proper ∧ c.slice [slot] = .error .panics ∧
      c.pieces slot = [⟨⟨0, 4611686018427387904⟩, .singleton 1⟩,
        ⟨⟨4611686018427387904, lastInstant⟩, .singleton 1⟩] := by
  intro c slot
  have hc : 0 < c.duration := by decide
  have hs : slot.Proper := by decide
  have htell : ¬ c.Tellable slot := by decide +kernel
  refine ⟨hc, hs, ?_, by decide +kernel⟩
  rw [slice, cutFrom_start hc hs, if_neg htell]
  rfl

end Slicing

end FreeTime
