-- The laws of hours. A range of the day is accepted by its times, down to the nanosecond and with
-- leap seconds in their place, and it is put on dates by whole milliseconds. Where the two part a
-- range lapses: it holds no instant or stops before it starts, and then cannot be put on a date at all,
-- or it runs over the end of its day. Any other range is an interval of its day, so ranges on
-- different dates never meet.
import FreeTime.Proofs.RuleSpans

namespace FreeTime

/-! ## Where times and milliseconds part -/

namespace TimeOfDay

/-- Two times that are the same down to the millisecond. -/
def SameMillisecond (a b : TimeOfDay) : Prop :=
  a.hour = b.hour ∧ a.minute = b.minute ∧ a.second = b.second ∧
    a.nano / 1000000 = b.nano / 1000000

instance (a b : TimeOfDay) : Decidable (a.SameMillisecond b) :=
  inferInstanceAs (Decidable (_ ∧ _))

/-- A leap second runs into the first second of the next minute: the first time lies in a leap
second, and the other one in the second after it, by the millisecond no deeper. -/
def RunsInto (a b : TimeOfDay) : Prop :=
  a.second = 60 ∧ b.hour * 60 + b.minute = a.hour * 60 + a.minute + 1 ∧ b.second = 0 ∧
    b.nano / 1000000 ≤ a.nano / 1000000

instance (a b : TimeOfDay) : Decidable (a.RunsInto b) := inferInstanceAs (Decidable (_ ∧ _))

/-- A time in the leap second that closes the day. -/
def ClosesDay (t : TimeOfDay) : Prop := t.hour = 23 ∧ t.minute = 59 ∧ t.second = 60

instance (t : TimeOfDay) : Decidable t.ClosesDay := inferInstanceAs (Decidable (_ ∧ _))

/-- A time in whole milliseconds, outside of leap seconds. -/
def Plain (t : TimeOfDay) : Prop := t.second < 60 ∧ t.nano % 1000000 = 0

theorem bounds (t : TimeOfDay) :
    t.hour < 24 ∧ t.minute < 60 ∧ t.second ≤ 60 ∧ t.nano < 1000000000 :=
  ⟨t.hour_lt, t.minute_lt, t.second_le, t.nano_lt⟩

/-- Of two times in order the milliseconds are in order too, unless they are the same, or a leap
second runs into the later time. -/
theorem milliseconds_lt_iff {a b : TimeOfDay} (h : a < b) :
    a.milliseconds < b.milliseconds ↔ ¬ (a.SameMillisecond b ∨ a.RunsInto b) := by
  have hlt : a.rank < b.rank := h
  have := a.bounds
  have := b.bounds
  unfold rank at hlt
  unfold milliseconds SameMillisecond RunsInto
  omega

theorem milliseconds_le_day_iff (t : TimeOfDay) :
    t.milliseconds ≤ dayMs ↔ ¬ (t.ClosesDay ∧ 1000000 ≤ t.nano) := by
  have := t.bounds
  unfold milliseconds ClosesDay dayMs
  omega

theorem milliseconds_lt_day_iff (t : TimeOfDay) : t.milliseconds < dayMs ↔ ¬ t.ClosesDay := by
  have := t.bounds
  unfold milliseconds ClosesDay dayMs
  omega

theorem milliseconds_lt (t : TimeOfDay) : t.milliseconds < dayMs + 1000 := by
  have := t.bounds
  unfold milliseconds dayMs
  omega

end TimeOfDay

namespace TimeRange

/-- A range that holds no instant though its times are in order: they are the same down to the
millisecond, or lie in a leap second and in the second after it. To the end of the day nothing is
left within the leap second that closes the day. -/
def Collapses (r : TimeRange) : Prop :=
  match r.stop with
  | none => r.start.ClosesDay
  | some t => r.start.SameMillisecond t ∨ r.start.RunsInto t

instance : (r : TimeRange) → Decidable r.Collapses
  | ⟨_, none, _⟩ => inferInstanceAs (Decidable (TimeOfDay.ClosesDay _))
  | ⟨_, some _, _⟩ => inferInstanceAs (Decidable (_ ∨ _))

/-- A range that stops a millisecond or more within the leap second that closes the day. -/
def RunsOver (r : TimeRange) : Prop :=
  match r.stop with
  | none => False
  | some t => t.ClosesDay ∧ 1000000 ≤ t.nano

instance : (r : TimeRange) → Decidable r.RunsOver
  | ⟨_, none, _⟩ => inferInstanceAs (Decidable False)
  | ⟨_, some _, _⟩ => inferInstanceAs (Decidable (_ ∧ _))

/-- A range that is accepted and yet no interval of its day. -/
def Lapses (r : TimeRange) : Prop := r.Collapses ∨ r.RunsOver

instance (r : TimeRange) : Decidable r.Lapses := inferInstanceAs (Decidable (_ ∨ _))

theorem startMs_lt_stopMs_iff (r : TimeRange) : r.startMs < r.stopMs ↔ ¬ r.Collapses := by
  obtain ⟨start, stop, horder⟩ := r
  cases stop with
  | none => exact start.milliseconds_lt_day_iff
  | some t => exact TimeOfDay.milliseconds_lt_iff (horder t rfl)

theorem stopMs_le_day_iff (r : TimeRange) : r.stopMs ≤ dayMs ↔ ¬ r.RunsOver := by
  obtain ⟨start, stop, horder⟩ := r
  cases stop with
  | none => exact iff_of_true (Int.le_refl dayMs) id
  | some t => exact t.milliseconds_le_day_iff

theorem startMs_nonneg (r : TimeRange) : 0 ≤ r.startMs := r.start.milliseconds_nonneg

/-- A range that is accepted lies in its day unless it lapses. -/
theorem inDay_iff (r : TimeRange) : r.InDay ↔ ¬ r.Lapses := by
  have hnonneg := r.startMs_nonneg
  unfold InDay Lapses
  rw [not_or, ← startMs_lt_stopMs_iff, ← stopMs_le_day_iff]
  omega

/-- A range between plain times does not lapse. -/
theorem not_lapses_of_plain {r : TimeRange} (hstart : r.start.Plain) (hstop : ∀ t ∈ r.stop, t.Plain) :
    ¬ r.Lapses := by
  obtain ⟨start, stop, horder⟩ := r
  have hsecond : start.second < 60 := hstart.1
  have hwhole : start.nano % 1000000 = 0 := hstart.2
  cases stop with
  | none =>
    rintro (⟨_, _, hleap⟩ | hover)
    · exact absurd (hleap : start.second = 60) (Nat.ne_of_lt hsecond)
    · exact hover
  | some t =>
    have hlt : start.rank < t.rank := horder t rfl
    obtain ⟨hsecond', hwhole'⟩ := hstop t rfl
    simp only [Lapses, Collapses, RunsOver, TimeOfDay.SameMillisecond, TimeOfDay.RunsInto,
      TimeOfDay.ClosesDay]
    rintro ((⟨hhour, hminute, hsame, hnano⟩ | ⟨hleap, _⟩) | ⟨⟨_, _, hleap⟩, _⟩)
    · -- Whole milliseconds that are the same leave nothing to tell the two times apart.
      unfold TimeOfDay.rank at hlt
      omega
    · omega
    · omega

theorem between_of_lt {start stop : TimeOfDay} (h : start < stop) :
    between start stop = .ok ⟨start, some stop, by rintro t ⟨⟩; exact h⟩ :=
  dif_pos h

theorem plain_of_atHour {hour : Nat} {t : TimeOfDay} (h : atHour hour = .ok t) : t.Plain := by
  unfold atHour TimeOfDay.of? at h
  split at h
  · rename_i found hfound
    split at hfound <;> cases hfound
    cases h
    exact ⟨(by decide : 0 < 60), rfl⟩
  · cases h

/-- A range of whole hours starts and stops at plain times. -/
theorem not_lapses_of_hours {start stop : Nat} {r : TimeRange} (h : hours start stop = .ok r) :
    ¬ r.Lapses := by
  obtain ⟨first, hfirst, h⟩ := bind_eq_ok.mp h
  split at h
  · cases h
    exact not_lapses_of_plain (plain_of_atHour hfirst) (by rintro t ⟨⟩)
  · obtain ⟨second, hsecond, h⟩ := bind_eq_ok.mp h
    unfold between at h
    split at h <;> cases h
    exact not_lapses_of_plain (plain_of_atHour hfirst)
      (by rintro t ⟨⟩; exact plain_of_atHour hsecond)

/-! ## Ranges on dates -/

/-- A range that collapses cannot be put on any date, and any other one can. -/
theorem on_eq (r : TimeRange) (d : Date) :
    r.on d = if r.Collapses then .error .panics else .ok (r.endsOn d) := by
  unfold on Span.asserted
  by_cases hcollapses : r.Collapses
  · rw [if_pos hcollapses, if_neg fun h => r.startMs_lt_stopMs_iff.mp (endsOn_proper_iff.mp h) hcollapses]
  · rw [if_neg hcollapses, if_pos (endsOn_proper_iff.mpr (r.startMs_lt_stopMs_iff.mpr hcollapses))]

/-- The span of a range on a date holds an instant and lies between the midnights that open and close
the date, just if the range lies in its day. -/
theorem endsOn_within_iff (r : TimeRange) (d : Date) :
    ((r.endsOn d).Proper ∧ d.midnight ≤ (r.endsOn d).start ∧ (r.endsOn d).stop ≤ d.midnight + dayMs) ↔
      r.InDay := by
  simp only [endsOn, Span.Proper, InDay]
  omega

theorem on_within_iff (r : TimeRange) (d : Date) :
    (∃ span, r.on d = .ok span ∧ span.Proper ∧ d.midnight ≤ span.start ∧
      span.stop ≤ d.midnight + dayMs) ↔ r.InDay := by
  simp only [on_eq_ok_iff, and_assoc]
  constructor
  · rintro ⟨_, _, rfl, hwithin⟩
    exact (r.endsOn_within_iff d).mp hwithin
  · exact fun h => ⟨_, h.2.1, rfl, (r.endsOn_within_iff d).mpr h⟩

/-- Ranges that stop by the end of their day meet on the same date or not at all. -/
theorem endsOn_overlaps_iff {r s : TimeRange} (hr : ¬ r.RunsOver) (hs : ¬ s.RunsOver) (d e : Date) :
    (r.endsOn d).overlaps (s.endsOn e) = true ↔ d = e ∧ r.overlaps s = true := by
  rw [← stopMs_le_day_iff, dayMs] at hr hs
  have hstart := r.startMs_nonneg
  have hstart' := s.startMs_nonneg
  rw [Date.ext_iff]
  simp only [Span.overlaps, overlaps, Bool.and_eq_true, decide_eq_true_eq]
  simp only [endsOn, Date.midnight, dayMs]
  omega

/-- A range that runs over the end of its day meets the first hour of the next one. -/
theorem endsOn_overlaps_of_runsOver {r first : TimeRange} (hr : r.RunsOver)
    (hfirst : hours 0 1 = .ok first) {d next : Date} (hnext : next.day = d.day + 1) :
    (r.endsOn d).overlaps (first.endsOn next) = true := by
  have hstart : r.startMs < dayMs + 1000 := r.start.milliseconds_lt
  have hstop : dayMs < r.stopMs := Int.not_le.mp fun hle => r.stopMs_le_day_iff.mp hle hr
  have hhour : first.startMs = 0 ∧ first.stopMs = 3600000 := by
    cases hfirst
    decide
  rw [Span.overlaps, Bool.and_eq_true, decide_eq_true_eq, decide_eq_true_eq]
  simp only [endsOn, Date.midnight, hnext, hhour.1, hhour.2, dayMs] at hstart hstop ⊢
  omega

/-! ## The laws -/

/-- A range can be put on any date unless it collapses. Put on a date, it is an interval that holds an
instant and lies between the midnights around that date, just if it does not lapse; and then it meets
another such range on the same date or not at all. Meeting goes wrong for the ranges that run over,
and no others: on the next date they still meet the first hour. Ranges of whole hours never lapse, nor
do ranges between plain times. -/
theorem a_range_is_an_interval_of_its_day_unless_it_lapses (r : TimeRange) :
    (∀ d, r.on d = if r.Collapses then .error .panics else .ok (r.endsOn d)) ∧
      (∀ d, (∃ span, r.on d = .ok span ∧ span.Proper ∧ d.midnight ≤ span.start ∧
        span.stop ≤ d.midnight + dayMs) ↔ ¬ r.Lapses) ∧
      ((∀ s : TimeRange, ¬ s.RunsOver → ∀ d e,
        (r.endsOn d).overlaps (s.endsOn e) = true ↔ d = e ∧ r.overlaps s = true) ↔
          ¬ r.RunsOver) ∧
      (∀ start stop, hours start stop = .ok r → ¬ r.Lapses) ∧
      (r.start.Plain → (∀ t ∈ r.stop, t.Plain) → ¬ r.Lapses) := by
  refine ⟨r.on_eq, fun d => (on_within_iff r d).trans r.inDay_iff, ⟨fun hmeet hover => ?_, ?_⟩,
    fun _ _ => not_lapses_of_hours, not_lapses_of_plain⟩
  · obtain ⟨first, hfirst, hday⟩ : ∃ first, hours 0 1 = .ok first ∧ ¬ first.RunsOver :=
      ⟨_, rfl, by decide⟩
    let d : Date := ⟨0, by decide, by decide⟩
    let next : Date := ⟨1, by decide, by decide⟩
    have hmet : (r.endsOn d).overlaps (first.endsOn next) = true :=
      endsOn_overlaps_of_runsOver hover hfirst rfl
    have hsame := ((hmeet first hday d next).mp hmet).1
    exact absurd hsame (by decide)
  · exact fun hr s hs d e => endsOn_overlaps_iff hr hs d e

end TimeRange

namespace Sample

/-- A minute and a fraction of its leap second. -/
def leap (hour minute nano : Nat) (hhour : hour < 24) (hminute : minute < 60)
    (hnano : nano < 1000000000) : TimeOfDay :=
  ⟨hour, minute, 60, nano, hhour, hminute, by decide, hnano⟩

/-- A time in the second that follows the leap second of five past seven. -/
def sixPastSeven (nano : Nat) (hnano : nano < 1000000000) : TimeOfDay :=
  { TimeOfDay.midnight with
    hour := 7, minute := 6, nano, hour_lt := by decide, minute_lt := by decide, nano_lt := hnano }

end Sample

/-- A range out of a leap second, which stops deeper in the next second than it started in its own,
is an interval of its day, and put on dates it meets itself on the same date only. So are the hours
from nine to noon. -/
theorem a_leap_second_may_be_part_of_the_day :
    ∃ r morning, TimeRange.between (Sample.leap 7 5 200000000 (by decide) (by decide) (by decide))
        (Sample.sixPastSeven 500000000 (by decide)) = .ok r ∧ ¬ r.Lapses ∧ r.overlaps r = true ∧
      (∀ d, ∃ span, r.on d = .ok span ∧ span.Proper ∧ d.midnight ≤ span.start ∧
        span.stop ≤ d.midnight + dayMs) ∧
      (∀ d e, (r.endsOn d).overlaps (r.endsOn e) = true ↔ d = e) ∧
      TimeRange.hours 9 12 = .ok morning ∧ ¬ morning.Lapses := by
  refine ⟨_, _, TimeRange.between_of_lt (by decide), by decide, by decide, fun d => ?_,
    fun d e => ?_, rfl, ?_⟩
  · exact ((TimeRange.a_range_is_an_interval_of_its_day_unless_it_lapses _).2.1 d).mpr (by decide)
  · rw [(TimeRange.a_range_is_an_interval_of_its_day_unless_it_lapses _).2.2.1.mpr ?_ _ ?_ d e]
    · exact and_iff_left (by decide)
    · decide
    · decide
  · exact (TimeRange.a_range_is_an_interval_of_its_day_unless_it_lapses _).2.2.2.1 9 12 rfl

/-- Four ranges that are accepted and lapse. One runs half a second over the end of its day and meets
the first hour of the next. The others cannot be put on a date: one lies within a millisecond and one
within the last leap second, and one stops in the second after a leap second, before it started. -/
theorem accepted_ranges_may_lapse :
    let d : Date := ⟨20159, by decide, by decide⟩
    let next : Date := ⟨20160, by decide, by decide⟩
    let late : TimeOfDay := ⟨23, 0, 0, 0, by decide, by decide, by decide, by decide⟩
    let close := Sample.leap 23 59 500000000 (by decide) (by decide) (by decide)
    (∃ r first span hour, TimeRange.between late close = .ok r ∧
      TimeRange.hours 0 1 = .ok first ∧ r.on d = .ok span ∧ first.on next = .ok hour ∧
      ¬ span.stop ≤ d.midnight + dayMs ∧ span.overlaps hour = true ∧ d ≠ next) ∧
    (∃ r, TimeRange.between (Sample.sixPastSeven 100000 (by decide))
        (Sample.sixPastSeven 200000 (by decide)) = .ok r ∧ r.on d = .error .panics) ∧
    (TimeRange.untilEndOfDay close).on d = .error .panics ∧
    ∃ r, TimeRange.between (Sample.leap 7 5 500000000 (by decide) (by decide) (by decide))
        (Sample.sixPastSeven 200000000 (by decide)) = .ok r ∧ r.on d = .error .panics := by
  have hput {r : TimeRange} {d : Date} (h : r.startMs < r.stopMs) : r.on d = .ok (r.endsOn d) :=
    TimeRange.on_eq_ok_iff.mpr ⟨h, rfl⟩
  have hpanics {r : TimeRange} {d : Date} (h : r.Collapses) : r.on d = .error .panics :=
    (r.on_eq d).trans (if_pos h)
  refine ⟨⟨_, _, _, _, TimeRange.between_of_lt (by decide), rfl, hput ?_, hput ?_, ?_, ?_, ?_⟩,
    ⟨_, TimeRange.between_of_lt (by decide), hpanics ?_⟩, hpanics ?_,
    ⟨_, TimeRange.between_of_lt (by decide), hpanics ?_⟩⟩ <;> decide

end FreeTime
