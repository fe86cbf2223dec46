-- The laws of bookings. A booking that runs takes up one unit of a resource for each time it names
-- the resource, so in what order it names its resources never matters. How often it names one does:
-- named twice, a resource for two is booked up by a single booking.
import FreeTime.Proofs.Plans

namespace FreeTime

/-- How many units of a resource a booking takes up at an instant: while it runs, one for each time
it names the resource. -/
def BusyEvent.takes (e : BusyEvent) (id t : Int) : Nat :=
  if e.span.Covers t then e.resources.count id else 0

/-- How many units of a resource are taken up at an instant. -/
def unitsAt (events : List BusyEvent) (id t : Int) : Nat :=
  (events.map fun e => e.takes id t).sum

/-- How many bookings of a resource run at an instant. -/
def bookingsAt (events : List BusyEvent) (id t : Int) : Nat :=
  events.countP fun e => decide (id ∈ e.resources ∧ e.span.Covers t)

/-! ## Bookings and units -/

variable {events : List BusyEvent} {id t : Int}

/-- The bookings of a resource that run are those that take up some of it. -/
theorem BusyEvent.takes_pos_iff {e : BusyEvent} :
    0 < e.takes id t ↔ id ∈ e.resources ∧ e.span.Covers t := by
  unfold takes
  by_cases hcovers : e.span.Covers t
  · rw [if_pos hcovers, List.count_pos_iff]
    exact (and_iff_left hcovers).symm
  · rw [if_neg hcovers]
    exact iff_of_false (Nat.lt_irrefl 0) fun h => hcovers h.2

theorem BusyEvent.takes_le_one {e : BusyEvent} (h : e.span.Covers t → e.resources.count id ≤ 1) :
    e.takes id t ≤ 1 := by
  unfold takes
  split
  · exact h ‹_›
  · exact Nat.zero_le 1

theorem unitsAt_cons (e : BusyEvent) (events : List BusyEvent) (id t : Int) :
    unitsAt (e :: events) id t = e.takes id t + unitsAt events id t := by
  simp [unitsAt]

theorem bookingsAt_cons (e : BusyEvent) (events : List BusyEvent) (id t : Int) :
    bookingsAt (e :: events) id t =
      (if 0 < e.takes id t then 1 else 0) + bookingsAt events id t := by
  unfold bookingsAt
  rw [List.countP_cons, Nat.add_comm]
  simp only [decide_eq_true_eq, BusyEvent.takes_pos_iff]

/-- No booking counts for more than it takes up. -/
theorem bookingsAt_le_unitsAt (events : List BusyEvent) (id t : Int) :
    bookingsAt events id t ≤ unitsAt events id t := by
  induction events with
  | nil => exact Nat.le_refl _
  | cons e events ih =>
    rw [bookingsAt_cons, unitsAt_cons]
    split <;> omega

/-- Bookings that take up one unit at most are counted by their units. -/
theorem unitsAt_eq_bookingsAt (h : ∀ e ∈ events, e.takes id t ≤ 1) :
    unitsAt events id t = bookingsAt events id t := by
  induction events with
  | nil => rfl
  | cons e events ih =>
    have hone := h e (by simp)
    rw [unitsAt_cons, bookingsAt_cons, ih fun x hx => h x (List.mem_cons_of_mem _ hx)]
    split <;> omega

/-- Where no booking of a resource runs, nothing of it is taken up. -/
theorem unitsAt_eq_zero (h : bookingsAt events id t = 0) : unitsAt events id t = 0 := by
  rw [← h]
  apply unitsAt_eq_bookingsAt
  intro e he
  have hnone := List.countP_eq_zero.mp h e he
  rw [decide_eq_true_eq, ← BusyEvent.takes_pos_iff] at hnone
  omega

/-- The spans that bookings put to a resource cover an instant once for each unit. -/
theorem occupancyAt_busy (rules : List Rule) (events : List BusyEvent)
    (capacities : List (Int × Nat)) (id t : Int) :
    occupancyAt ((Inputs.ofLists rules events capacities).busy id) t = unitsAt events id t := by
  rw [Inputs.occupancyAt_ofLists, Inputs.boundTo, List.countP_flatMap, unitsAt]
  congr 1
  apply List.map_congr_left
  intro e _
  simp only [Function.comp_apply, List.countP_replicate, decide_eq_true_eq, BusyEvent.takes]

/-- As many units are taken up as a resource has where as many bookings of it run, if it has one or
none of them takes up more. -/
theorem le_unitsAt_iff {capacity : Nat} (h : capacity = 1 ∨ ∀ e ∈ events, e.takes id t ≤ 1) :
    capacity ≤ unitsAt events id t ↔ capacity ≤ bookingsAt events id t := by
  rcases h with rfl | hone
  · have hle := bookingsAt_le_unitsAt events id t
    have hzero : bookingsAt events id t = 0 → unitsAt events id t = 0 := unitsAt_eq_zero
    omega
  · rw [unitsAt_eq_bookingsAt hone]

/-- A resource is booked up where all its units are taken up. -/
theorem coveredBy_bookedUp_ofLists {policy : Policy} (haware : policy.capacityAware = true)
    {p : Period} {rules : List Rule} {events : List BusyEvent} {capacities : List (Int × Nat)}
    {id : Int} {i : Intervals}
    (h : Setting.intervals ⟨policy, p, .ofLists rules events capacities⟩ id = .ok i) (t : Int) :
    CoveredBy (i.bookedUp policy) t ↔
      max 1 ((capacities.reverse.lookup id).getD 1) ≤ unitsAt events id t := by
  have hproper := booksProperly_ofLists policy p rules events capacities
  have hbooked := Setting.bookedUp_of_intervals h
  dsimp only at hbooked
  rw [hbooked, Setting.coveredBy_bookedUp hproper, Setting.limit, if_pos haware, occupancyAt_busy]
  simp [Inputs.ofLists]

theorem intervals_ofLists_ok_iff {policy : Policy} {p : Period} {rules : List Rule}
    {events : List BusyEvent} {capacities : List (Int × Nat)} {id : Int} :
    (∃ i, Setting.intervals ⟨policy, p, .ofLists rules events capacities⟩ id = .ok i) ↔
      ∀ r ∈ rules, id ∈ r.resources → policy.supports r.kind = true ∧ r.Expands p := by
  rw [Setting.intervals_ok_iff, Setting.accepts_iff, Setting.Expands]
  simp only [Inputs.mem_rules_ofLists, and_imp]
  exact ⟨fun h r hr hid => ⟨h.1 r hr hid, h.2 r hr hid⟩,
    fun h => ⟨fun r hr hid => (h r hr hid).1, fun r hr hid => (h r hr hid).2⟩⟩

/-! ## The laws -/

/-- A resource has intervals just if its rules are accepted and can be expanded, and then it is booked
up where all its units are taken up. If it takes one booking at a time, or no booking that runs names
it more than once, that is where as many bookings of it run as it takes. -/
theorem a_resource_is_booked_up_by_as_many_bookings_as_it_takes {policy : Policy}
    (haware : policy.capacityAware = true) (p : Period) (rules : List Rule)
    (events : List BusyEvent) (capacities : List (Int × Nat)) (id : Int) :
    let intervals := Setting.intervals ⟨policy, p, .ofLists rules events capacities⟩ id
    let capacity := max 1 ((capacities.reverse.lookup id).getD 1)
    ((∃ i, intervals = .ok i) ↔
        ∀ r ∈ rules, id ∈ r.resources → policy.supports r.kind = true ∧ r.Expands p) ∧
      ∀ i, intervals = .ok i → ∀ t,
        (CoveredBy (i.bookedUp policy) t ↔ capacity ≤ unitsAt events id t) ∧
          ((capacity = 1 ∨ ∀ e ∈ events, e.span.Covers t → e.resources.count id ≤ 1) →
            (CoveredBy (i.bookedUp policy) t ↔ capacity ≤ bookingsAt events id t)) := by
  intro intervals capacity
  refine ⟨intervals_ofLists_ok_iff, fun i hi t => ?_⟩
  have hunits := coveredBy_bookedUp_ofLists haware hi t
  refine ⟨hunits, fun honce => hunits.trans (le_unitsAt_iff ?_)⟩
  exact honce.imp_right fun h e he => BusyEvent.takes_le_one (h e he)

/-! ## A room for two -/

namespace Sample

/-- A booking from nine to noon. -/
def morning (id : Int) (resources : List Int) : BusyEvent := { booking with id, resources }

/-- A booking of the first room from noon to two. -/
def afternoon : BusyEvent := ⟨3, ⟨wednesday, noon⟩, ⟨wednesday, two⟩, [1], by decide⟩

/-- The first room takes two bookings at a time. -/
def roomForTwo (events : List BusyEvent) : Setting :=
  ⟨.full, day, .ofLists [openRule] events [(1, 2)]⟩

end Sample

/-- In the morning two bookings fill the room, whichever room they name first. In the afternoon one
leaves place for another. -/
theorem two_bookings_fill_a_room_for_two :
    let events := [Sample.morning 1 [1, 2], Sample.morning 2 [2, 1], Sample.afternoon]
    Policy.full.capacityAware = true ∧
      (∀ r ∈ [Sample.openRule], 1 ∈ r.resources →
        Policy.full.supports r.kind = true ∧ r.Expands Sample.day) ∧
      (∀ e ∈ events, e.resources.count 1 ≤ 1) ∧
      ∃ i, (Sample.roomForTwo events).intervals 1 = .ok i ∧
        i.bookedUp .full = [⟨1741770000000, 1741780800000⟩] ∧
        ∀ t, CoveredBy (i.bookedUp .full) t ↔ 2 ≤ bookingsAt events 1 t := by
  intro events
  have haware : Policy.full.capacityAware = true := rfl
  have honce : ∀ e ∈ events, e.resources.count 1 ≤ 1 := by decide
  have hintervals : (Sample.roomForTwo events).intervals 1 =
      .ok ⟨[⟨1741770000000, 1741791600000⟩], [], [⟨1741770000000, 1741780800000⟩,
        ⟨1741770000000, 1741780800000⟩, ⟨1741780800000, 1741788000000⟩], 2⟩ := by cbv
  obtain ⟨hexists, hbooked⟩ := a_resource_is_booked_up_by_as_many_bookings_as_it_takes haware
    Sample.day [Sample.openRule] events [(1, 2)] 1
  exact ⟨haware, hexists.mp ⟨_, hintervals⟩, honce, _, hintervals, by cbv, fun t =>
    (hbooked _ hintervals t).2 (Or.inr fun e he _ => honce e he)⟩

/-- A single booking that names the room twice fills it, and leaves no place for another. -/
theorem a_room_named_twice_is_full_with_one_booking :
    let events := [Sample.morning 1 [1, 1]]
    ∃ i, (Sample.roomForTwo events).intervals 1 = .ok i ∧
      CoveredBy (i.bookedUp .full) 1741770000000 ∧ bookingsAt events 1 1741770000000 = 1 ∧
      ¬ ∀ t, CoveredBy (i.bookedUp .full) t ↔ max 1 2 ≤ bookingsAt events 1 t := by
  intro events
  have hintervals : (Sample.roomForTwo events).intervals 1 =
      .ok ⟨[⟨1741770000000, 1741791600000⟩], [], [⟨1741770000000, 1741780800000⟩,
        ⟨1741770000000, 1741780800000⟩], 2⟩ := by cbv
  have hone : bookingsAt events 1 1741770000000 = 1 := by decide
  have hspans : Intervals.bookedUp .full ⟨[⟨1741770000000, 1741791600000⟩], [],
      [⟨1741770000000, 1741780800000⟩, ⟨1741770000000, 1741780800000⟩], 2⟩ =
        [⟨1741770000000, 1741780800000⟩] := by cbv
  refine ⟨_, hintervals, ?_⟩
  rw [hspans]
  have hbooked : CoveredBy [⟨1741770000000, 1741780800000⟩] 1741770000000 := by decide
  refine ⟨hbooked, hone, fun h => ?_⟩
  have := (h 1741770000000).mp hbooked
  omega

end FreeTime
