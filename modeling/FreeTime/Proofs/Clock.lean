-- The law of the clock that rules and bookings share. For a booking the nanoseconds of its moments
-- are rounded down to whole milliseconds; for a range of the day what is below a millisecond is cut
-- off its times, which then count on from the midnight of a date. Both give the same instants,
-- before 1970 as after it, with fractions and in leap seconds.
import FreeTime.BusyEvent
import FreeTime.Proofs.Hours

namespace FreeTime

/-! ## Nanoseconds -/

namespace TimeOfDay

/-- The nanoseconds since the start of the day. A leap second runs on into the next minute. -/
def nanoseconds (t : TimeOfDay) : Int :=
  ((t.hour * 60 + t.minute) * 60 + t.second) * 1000000000 + t.nano

theorem milliseconds_eq_tdiv (t : TimeOfDay) : t.milliseconds = t.nanoseconds.tdiv 1000000 := by
  have hnonneg : 0 ≤ t.nanoseconds := by
    unfold nanoseconds
    omega
  rw [Int.tdiv_eq_ediv_of_nonneg hnonneg]
  unfold milliseconds nanoseconds
  omega

end TimeOfDay

namespace Moment

/-- The nanoseconds since the start of 1970, negative before it. -/
def nanoseconds (m : Moment) : Int := m.date.day * 86400000000000 + m.time.nanoseconds

/-- The midnight of a date is a whole number of milliseconds, so it makes no difference whether the
time of day is rounded or the sum of both. -/
theorem instant_eq_ediv (m : Moment) : m.instant = m.nanoseconds / 1000000 := by
  unfold instant Date.instant Date.midnight dayMs nanoseconds
  unfold TimeOfDay.milliseconds TimeOfDay.nanoseconds
  omega

end Moment

/-! ## Bookings -/

namespace BusyEvent

theorem between_eq_ok {id : Int} {start stop : Moment} {resources : List Int} {e : BusyEvent}
    (h : between id start stop resources = .ok e) :
    e.id = id ∧ e.start = start ∧ e.stop = stop ∧ e.resources = resources := by
  unfold between at h
  split at h
  · cases h
    exact ⟨rfl, rfl, rfl, rfl⟩
  · cases h

theorem exists_between_iff {id : Int} {start stop : Moment} {resources : List Int} :
    (∃ e, between id start stop resources = .ok e) ↔ start.instant < stop.instant := by
  unfold between
  by_cases h : start.instant < stop.instant
  · rw [dif_pos h]
    exact iff_of_true ⟨_, rfl⟩ h
  · rw [dif_neg h]
    exact iff_of_false (by rintro ⟨_, ⟨⟩⟩) h

theorem span_of_between {id : Int} {start stop : Moment} {resources : List Int} {e : BusyEvent}
    (h : between id start stop resources = .ok e) : e.span = ⟨start.instant, stop.instant⟩ := by
  obtain ⟨_, rfl, rfl, _⟩ := between_eq_ok h
  rfl

end BusyEvent

/-! ## Ranges -/

namespace TimeRange

theorem endsOn_start (r : TimeRange) (d : Date) : (r.endsOn d).start = d.instant r.start := rfl

theorem endsOn_stop_of_some {r : TimeRange} {t : TimeOfDay} (h : t ∈ r.stop) (d : Date) :
    (r.endsOn d).stop = d.instant t := by
  unfold endsOn stopMs Date.instant
  rw [Option.mem_def.mp h]

theorem endsOn_stop_of_none {r : TimeRange} (h : r.stop = none) (d : Date) :
    (r.endsOn d).stop = (d.day + 1) * dayMs := by
  unfold endsOn stopMs Date.midnight
  rw [h, Int.add_mul, Int.one_mul]

theorem endsOn_of_between {start stop : TimeOfDay} {r : TimeRange} (h : between start stop = .ok r)
    (d : Date) : r.endsOn d = ⟨d.instant start, d.instant stop⟩ := by
  unfold between at h
  split at h <;> cases h
  rfl

end TimeRange

/-! ## The law -/

/-- On any date a range between two times and a booking between them go by one clock. The booking is
accepted just if the range can be put on the date, and then it spans what the range spans. Any range
starts and stops on a date at the instants of its times, or at the midnight that closes the date, and
it spans what lies between if it can be put there. That instant is the nanosecond count of the
moment, rounded down, and also what is left of the time of day when it is cut off, counted from the
midnight that opens the date. -/
theorem Date.rules_and_bookings_share_one_clock (d : Date) :
    (∀ start stop : TimeOfDay, start < stop → ∃ r, TimeRange.between start stop = .ok r ∧
      ∀ id resources,
        ((∃ e, BusyEvent.between id ⟨d, start⟩ ⟨d, stop⟩ resources = .ok e) ↔
          ∃ span, r.on d = .ok span) ∧
        ∀ e, BusyEvent.between id ⟨d, start⟩ ⟨d, stop⟩ resources = .ok e → r.on d = .ok e.span) ∧
      (∀ r : TimeRange, (∀ span, r.on d = .ok span → span = r.endsOn d) ∧
        (r.endsOn d).start = d.instant r.start ∧
        (∀ t ∈ r.stop, (r.endsOn d).stop = d.instant t) ∧
        (r.stop = none → (r.endsOn d).stop = (d.day + 1) * dayMs ∧
          ∀ next : Date, next.day = d.day + 1 → (r.endsOn d).stop = next.midnight)) ∧
      ∀ t : TimeOfDay, d.instant t = Moment.nanoseconds ⟨d, t⟩ / 1000000 ∧
        d.instant t = d.midnight + t.nanoseconds.tdiv 1000000 := by
  refine ⟨?_, ?_, ?_⟩
  · intro start stop hlt
    have hrange := TimeRange.between_of_lt hlt
    refine ⟨_, hrange, fun id resources => ⟨?_, ?_⟩⟩
    · rw [BusyEvent.exists_between_iff]
      unfold TimeRange.on
      simp only [Span.asserted_eq_ok_iff, TimeRange.endsOn_of_between hrange, exists_and_left]
      exact (and_iff_left ⟨_, rfl⟩).symm
    · intro e he
      have hproper := BusyEvent.exists_between_iff.mp ⟨e, he⟩
      unfold TimeRange.on
      rw [Span.asserted_eq_ok_iff, BusyEvent.span_of_between he, TimeRange.endsOn_of_between hrange]
      exact ⟨hproper, rfl⟩
  · intro r
    refine ⟨fun span h => (TimeRange.on_eq_ok_iff.mp h).2, r.endsOn_start d,
      fun t ht => TimeRange.endsOn_stop_of_some ht d, fun hnone => ?_⟩
    have hstop := TimeRange.endsOn_stop_of_none hnone d
    refine ⟨hstop, fun next hnext => ?_⟩
    rw [hstop, Date.midnight, hnext]
  · intro t
    refine ⟨Moment.instant_eq_ediv ⟨d, t⟩, ?_⟩
    rw [Date.instant, t.milliseconds_eq_tdiv]

namespace Sample

/-- The last day before 1970. -/
def newYearsEve : Date := ⟨-1, by decide, by decide⟩

def newYearsDay : Date := ⟨0, by decide, by decide⟩

/-- The last nanosecond before the leap second that closes a day. -/
def lastNanosecond : TimeOfDay :=
  ⟨23, 59, 59, 999999999, by decide, by decide, by decide, by decide⟩

end Sample

/-- The last nanosecond of a minute before 1970 lies in the last millisecond, and a fraction deep in
the leap second after it is counted from 1970 on. A booking and a range between the two agree, and
from the nanosecond on a range runs to the midnight of the new year. -/
theorem a_booking_may_run_into_the_leap_second :
    let deep := Sample.leap 23 59 500999999 (by decide) (by decide) (by decide)
    Sample.lastNanosecond < deep ∧
      ∃ r e, TimeRange.between Sample.lastNanosecond deep = .ok r ∧
        BusyEvent.between 7 ⟨Sample.newYearsEve, Sample.lastNanosecond⟩ ⟨Sample.newYearsEve, deep⟩
          [3, 3] = .ok e ∧
        r.on Sample.newYearsEve = .ok e.span ∧ e.span = ⟨-1, 500⟩ ∧
        ∃ span, (TimeRange.untilEndOfDay Sample.lastNanosecond).on Sample.newYearsEve = .ok span ∧
          span.stop = Sample.newYearsDay.midnight := by
  intro deep
  have hlt : Sample.lastNanosecond < deep := by decide
  obtain ⟨hbooked, hranges, _⟩ := Date.rules_and_bookings_share_one_clock Sample.newYearsEve
  obtain ⟨r, hr, hevents⟩ := hbooked Sample.lastNanosecond deep hlt
  obtain ⟨e, he⟩ : ∃ e, BusyEvent.between 7 ⟨Sample.newYearsEve, Sample.lastNanosecond⟩
      ⟨Sample.newYearsEve, deep⟩ [3, 3] = .ok e :=
    BusyEvent.exists_between_iff.mpr (by decide)
  have hclosing := (hranges (.untilEndOfDay Sample.lastNanosecond)).2.2.2 rfl
  refine ⟨hlt, r, e, hr, he, (hevents 7 [3, 3]).2 e he, ?_, ?_⟩
  · rw [BusyEvent.span_of_between he]
    decide
  · exact ⟨_, rfl, hclosing.2 Sample.newYearsDay rfl⟩

end FreeTime
