-- The laws of the free time of one resource: it covers the instants at which the resource is
-- free, in slots of the resource alone.
import FreeTime.Pointwise
import FreeTime.Proofs.Occupancy
import FreeTime.Proofs.RuleSpans
import FreeTime.Proofs.Slots

namespace FreeTime

namespace Intervals

/-- The spans in which a resource is free. -/
def freeSpans (policy : Policy) (i : Intervals) : List Span :=
  let opened := Span.coalesce i.opening
  let blocks := i.blocks policy
  if blocks.isEmpty then opened
  else Span.coalesce (opened.flatMap (·.punch (Span.coalesce blocks)))

/-- The free slots of a resource are its free spans, with the resource as their set. -/
theorem freeSlots_eq (policy : Policy) (id : Int) (i : Intervals) :
    i.freeSlots policy id = Slot.tagged (.singleton id) (i.freeSpans policy) := by
  simp only [freeSlots, freeSpans, Slot.map_single, Slot.normalize_tagged, Slot.subtract_tagged]
  split <;> rfl

/-- The spans in which a resource is booked up. Where the policy does not look at capacities every
booking takes it up. -/
def bookedUp (policy : Policy) (i : Intervals) : List Span :=
  blockingSpans i.busy (if policy.capacityAware then i.capacity else 1)

/-- What is cut out is what rules close and what is booked up. -/
theorem blocks_eq (policy : Policy) (i : Intervals) :
    i.blocks policy = i.closing ++ i.bookedUp policy := rfl

theorem coveredBy_freeSpans (policy : Policy) (i : Intervals) (t : Int) :
    CoveredBy (i.freeSpans policy) t ↔ CoveredBy i.opening t ∧ ¬ CoveredBy (i.blocks policy) t := by
  simp only [freeSpans]
  split
  · rename_i hempty
    rw [List.isEmpty_iff.mp hempty, Span.coveredBy_coalesce]
    simp
  · have hblocks := Span.byStart_of_sorted (Span.coalesce_sorted (i.blocks policy))
    rw [Span.coveredBy_coalesce, coveredBy_flatMap]
    simp only [Span.coveredBy_punch _ hblocks, Span.coveredBy_coalesce]
    constructor
    · rintro ⟨s, hs, hc, hn⟩
      exact ⟨(Span.coveredBy_coalesce _ t).mp ⟨s, hs, hc⟩, hn⟩
    · rintro ⟨ho, hn⟩
      obtain ⟨s, hs, hc⟩ := (Span.coveredBy_coalesce _ t).mpr ho
      exact ⟨s, hs, hc, hn⟩

theorem freeSpans_byStart (policy : Policy) (i : Intervals) : ByStart (i.freeSpans policy) := by
  simp only [freeSpans]
  split <;> exact Span.byStart_of_sorted (Span.coalesce_sorted _)

theorem freeSpans_proper (policy : Policy) {i : Intervals} (h : AllProper i.opening) :
    AllProper (i.freeSpans policy) := by
  simp only [freeSpans]
  split
  · exact Span.coalesce_proper h
  · apply Span.coalesce_proper
    intro s hs
    obtain ⟨base, hbase, hs⟩ := List.mem_flatMap.mp hs
    exact Span.punch_proper _ (Span.coalesce_proper h base hbase) s hs

end Intervals

/-! ## Slots that list instants -/

/-- The slots stand in order, hold an instant each, and cover the instants that are meant. -/
structure Lists (slots : List Slot) (P : Int → Prop) : Prop where
  byStart : ByStart (Slot.spansOf slots)
  proper : AllProper (Slot.spansOf slots)
  covers : ∀ t, CoveredBy (Slot.spansOf slots) t ↔ P t

theorem lists_congr {slots : List Slot} {P Q : Int → Prop} (h : Lists slots P)
    (heq : ∀ t, P t ↔ Q t) : Lists slots Q :=
  ⟨h.byStart, h.proper, fun t => (h.covers t).trans (heq t)⟩

theorem lists_nil {P : Int → Prop} (h : ∀ t, ¬ P t) : Lists [] P :=
  ⟨List.Pairwise.nil, fun _ hx => (List.not_mem_nil hx).elim,
    fun t => by simp [Slot.spansOf, h t]⟩

/-- A list without slots means no instant. -/
theorem not_of_lists_nil {P : Int → Prop} (h : Lists [] P) (t : Int) : ¬ P t :=
  fun hp => not_coveredBy_nil t ((h.covers t).mpr hp)

theorem lists_coalesce {spans : List Span} {P : Int → Prop} (ids : IdSet)
    (hproper : AllProper spans) (h : ∀ t, CoveredBy spans t ↔ P t) :
    Lists (Slot.tagged ids (Span.coalesce spans)) P where
  byStart := by
    rw [Slot.spansOf_tagged]
    exact Span.byStart_of_sorted (Span.coalesce_sorted _)
  proper := by
    rw [Slot.spansOf_tagged]
    exact Span.coalesce_proper hproper
  covers t := by rw [Slot.spansOf_tagged, Span.coveredBy_coalesce, h]

theorem lists_intersect {a b : List Slot} {P Q : Int → Prop} (ha : Lists a P) (hb : Lists b Q) :
    Lists (Slot.intersect a b) fun t => P t ∧ Q t where
  byStart := Slot.intersect_byStart ha.byStart hb.byStart
  proper := Slot.intersect_proper a b
  covers t := by rw [Slot.coveredBy_intersect ha.byStart hb.byStart, ha.covers, hb.covers]

/-- The joined time of members lists the instants that one of them lists. -/
theorem lists_join {policy : Policy} {group : IdSet} {members : List (List Slot)} {P : Int → Prop}
    (hproper : ∀ slots ∈ members, AllProper (Slot.spansOf slots))
    (hcovers : ∀ t, (∃ slots ∈ members, CoveredBy (Slot.spansOf slots) t) ↔ P t) :
    Lists (policy.join group members) P := by
  rw [Policy.join, Slot.unionAll_retag]
  apply lists_coalesce
  · intro x hx
    obtain ⟨slots, hslots, hx⟩ := List.mem_flatMap.mp hx
    exact hproper slots hslots x hx
  · intro t
    rw [coveredBy_flatMap, hcovers]

namespace Setting

variable {s : Setting} {id : Int} {i : Intervals}

/-! ## The intervals of a resource -/

/-- Every booked span holds an instant. -/
def BooksProperly (s : Setting) : Prop := ∀ id, AllProper (s.inputs.busy id)

/-- The policy accepts every rule of a resource. -/
def Accepts (s : Setting) (id : Int) : Prop := s.unsupported? id = none

/-- Every rule of a resource can be expanded. -/
def Expands (s : Setting) (id : Int) : Prop := ∀ r ∈ s.inputs.rules id, r.Expands s.period

theorem checkKinds_ok_iff (s : Setting) (ids : List Int) :
    s.checkKinds ids = .ok () ↔ ∀ id ∈ ids, s.Accepts id := by
  unfold checkKinds Accepts
  rw [← List.findSome?_eq_none_iff]
  split
  · rename_i r h
    simp [h]
  · rename_i h
    simp [h]

/-- Where a resource has intervals, its rules are accepted, and the intervals are what these rules
open and close, with the bookings and the capacity of the resource. -/
theorem intervals_eq_ok (h : s.intervals id = .ok i) :
    s.Accepts id ∧ Rule.Opens (s.inputs.rules id) s.period i.opening i.closing ∧
      i.busy = s.inputs.busy id ∧ i.capacity = s.inputs.capacity id := by
  obtain ⟨_, hcheck, h⟩ := bind_eq_ok.mp h
  obtain ⟨⟨opening, closing⟩, hexpand, h⟩ := bind_eq_ok.mp h
  cases h
  exact ⟨(s.checkKinds_ok_iff [id]).mp hcheck id (by simp), Rule.opens_of_expand hexpand, rfl, rfl⟩

/-- A resource has intervals just if its rules are accepted and can be expanded. -/
theorem intervals_ok_iff : (∃ i, s.intervals id = .ok i) ↔ s.Accepts id ∧ s.Expands id := by
  rw [Expands, ← Rule.expand_ok_iff]
  constructor
  · rintro ⟨i, h⟩
    obtain ⟨_, hcheck, h⟩ := bind_eq_ok.mp h
    obtain ⟨spans, hexpand, _⟩ := bind_eq_ok.mp h
    exact ⟨(s.checkKinds_ok_iff [id]).mp hcheck id (by simp), spans, hexpand⟩
  · rintro ⟨hacc, spans, hexpand⟩
    have hcheck : s.checkKinds [id] = .ok () := (s.checkKinds_ok_iff [id]).mpr (by simpa using hacc)
    exact exists_ok_bind hcheck (exists_ok_bind hexpand ⟨_, rfl⟩)

/-- The spans in which a resource is booked up. -/
def bookedUp (s : Setting) (id : Int) : List Span :=
  blockingSpans (s.inputs.busy id) (if s.policy.capacityAware then s.inputs.capacity id else 1)

theorem bookedUp_of_intervals (h : s.intervals id = .ok i) :
    i.bookedUp s.policy = s.bookedUp id := by
  obtain ⟨_, _, hbusy, hcapacity⟩ := intervals_eq_ok h
  rw [Intervals.bookedUp, bookedUp, hbusy, hcapacity]

/-- At an instant a resource is left open: a rule opens it, no rule closes it, and it is not booked
up. Where every booking lasts for some time, this is when the resource is free. -/
def LeftAt (s : Setting) (id t : Int) : Prop :=
  s.OpenAt id t ∧ ¬ s.ClosedAt id t ∧ ¬ CoveredBy (s.bookedUp id) t

/-- Proper bookings take a resource up where as many of them as its limit cover an instant. -/
theorem coveredBy_bookedUp (h : s.BooksProperly) (id t : Int) :
    CoveredBy (s.bookedUp id) t ↔ s.limit id ≤ occupancyAt (s.inputs.busy id) t := by
  rw [bookedUp, coveredBy_blockingSpans (h id), limit]
  split <;> simp

theorem leftAt_iff_freeAt (h : s.BooksProperly) (id t : Int) : s.LeftAt id t ↔ s.FreeAt id t := by
  unfold LeftAt FreeAt
  rw [coveredBy_bookedUp h, Nat.not_le]

/-- The free slots of a resource list the instants at which it is left open. -/
theorem lists_freeSlots (h : s.intervals id = .ok i) :
    Lists (i.freeSlots s.policy id) (s.LeftAt id) := by
  obtain ⟨_, hopens, _⟩ := intervals_eq_ok h
  rw [Intervals.freeSlots_eq]
  refine ⟨?_, ?_, fun t => ?_⟩
  · rw [Slot.spansOf_tagged]
    exact Intervals.freeSpans_byStart _ _
  · rw [Slot.spansOf_tagged]
    exact Intervals.freeSpans_proper _ hopens.proper
  · rw [Slot.spansOf_tagged, Intervals.coveredBy_freeSpans, Intervals.blocks_eq, coveredBy_append,
      not_or, hopens.opened, hopens.closed, bookedUp_of_intervals h]
    rfl

end Setting

end FreeTime
