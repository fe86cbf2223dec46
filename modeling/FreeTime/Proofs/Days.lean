-- The laws of the days of a period. A period is seen in four ways: as the days that it lists, as a
-- test of dates, as a number of days and as a window of time. All four agree up to the last date of
-- the calendar. As that date has no next one, it is not listed, though the others know of it.
import FreeTime.Proofs.RuleSpans
import FreeTime.Proofs.Tiling

namespace FreeTime

/-- All of a day. -/
def TimeRange.wholeDay : TimeRange := .untilEndOfDay .midnight

namespace Period

/-- The days that a period lists are those that it contains, in order, and as many as it counts; and
a range of hours, put on each of them, fills its window without gap or overlap. -/
structure ViewsAgree (p : Period) (hours : TimeRange) : Prop where
  ascending : p.days.Pairwise (· < ·)
  listed : ∀ d, d ∈ p.days ↔ p.contains d = true
  counted : (p.days.length : Int) = p.length
  tiled : ∃ spans, p.days.mapM hours.on = .ok spans ∧ Tiles p.window.start p.window.stop spans

variable (p : Period)

/-! ## Listed days -/

theorem length_days : p.days.length = p.listedLength := by simp [days, Date.run]

/-- Whole days stand in a row. -/
theorem days_map_wholeDay :
    p.days.map TimeRange.wholeDay.endsOn = row p.window.start dayMs p.listedLength := by
  unfold days Date.run row
  rw [List.map_map]
  refine List.map_congr_left fun k hk => ?_
  rw [List.mem_range, listedLength] at hk
  have hday : (p.first.forward k).day = p.first.day + k := Date.forward_day (by omega)
  apply Span.ext
  all_goals
    simp only [Function.comp_apply, TimeRange.endsOn, TimeRange.startMs, TimeRange.stopMs,
      TimeRange.wholeDay, TimeRange.untilEndOfDay, TimeOfDay.milliseconds, TimeOfDay.midnight,
      window, Date.midnight, hday, dayMs]
    omega

/-- The listed days fill the window of a period up to the last midnight of the calendar. -/
theorem tiles_days : Tiles p.window.start (min p.window.stop Date.last.midnight)
    (p.days.map TimeRange.wholeDay.endsOn) := by
  have hfirst := p.first.le_lastDay
  have horder : p.first.day ≤ p.last.day := p.first_le
  have hlast := p.last.le_lastDay
  have hstop : min p.window.stop Date.last.midnight =
      p.window.start + p.listedLength * dayMs := by
    simp only [window, length, Date.daysUntil, Date.midnight, Date.last, listedLength, dayMs]
    omega
  rw [days_map_wholeDay, hstop]
  exact tiles_row (by decide) _ _

/-- Whole days can be put on all the listed days. -/
theorem mapM_wholeDay : p.days.mapM TimeRange.wholeDay.on =
    .ok (p.days.map TimeRange.wholeDay.endsOn) := by
  refine mapM_asserted_eq_ok_iff.mpr ⟨fun span hspan => ?_, rfl⟩
  obtain ⟨d, _, rfl⟩ := List.mem_map.mp hspan
  exact TimeRange.endsOn_proper_iff.mpr (by decide)

/-- The four views agree just if the period ends before the last date of the calendar. -/
theorem viewsAgree_iff : p.ViewsAgree .wholeDay ↔ p.last ≠ Date.last := by
  constructor
  · intro h heq
    -- The period contains the last date, and does not list it.
    have hin : p.contains Date.last = true :=
      contains_iff.mpr ⟨heq ▸ p.first_le, heq ▸ Int.le_refl p.last.day⟩
    exact (mem_days.mp ((h.listed Date.last).mpr hin)).2 rfl
  · intro hne
    have horder : p.first.day ≤ p.last.day := p.first_le
    have hlast : p.last.day < lastDay := Date.ne_last_iff.mp hne
    have htiles := p.tiles_days
    rw [show min p.window.stop Date.last.midnight = p.window.stop by
      simp only [window, length, Date.daysUntil, Date.midnight, Date.last, dayMs]
      omega] at htiles
    refine ⟨p.days_ascending, fun d => mem_days_iff hlast, ?_, _, p.mapM_wholeDay, htiles⟩
    rw [length_days]
    simp only [length, Date.daysUntil, listedLength]
    omega

/-! ## The laws -/

/-- The views of a period agree just if it ends before the last date of the calendar. In any period
the days stand in order, each once, and they are its dates but for that one; whole days put on them
fill the window without gap or overlap, up to the midnight at which the last date begins. -/
theorem only_the_last_date_is_not_listed (p : Period) :
    ∃ day, TimeRange.hours 0 24 = .ok day ∧
      (p.ViewsAgree day ↔ p.last ≠ Date.last) ∧
      p.days.Pairwise (· < ·) ∧
      (∀ d, d ∈ p.days ↔ p.contains d = true ∧ d ≠ Date.last) ∧
      ∃ spans, p.days.mapM day.on = .ok spans ∧
        Tiles p.window.start (min p.window.stop Date.last.midnight) spans :=
  ⟨.wholeDay, rfl, p.viewsAgree_iff, p.days_ascending, fun _ => mem_days, _, p.mapM_wholeDay,
    p.tiles_days⟩

/-- Of the last two days of the calendar one is listed, though both are contained and counted, and
lie in the window. -/
theorem of_the_last_two_days_one_is_listed :
    let eve : Date := ⟨95026235, by decide, by decide⟩
    let p : Period := ⟨eve, Date.last, by decide⟩
    Period.between eve Date.last = .ok p ∧ p.days = [eve] ∧ p.contains Date.last = true ∧
      p.length = 2 ∧ p.window = ⟨eve.midnight, Date.last.midnight + dayMs⟩ ∧
      ¬ (∀ d, d ∈ p.days ↔ p.contains d = true) ∧ (p.days.length : Int) ≠ p.length ∧
      ¬ Tiles p.window.start p.window.stop (p.days.map TimeRange.wholeDay.endsOn) := by
  intro eve p
  have hdays : p.days = [eve] := by decide +kernel
  have hin : p.contains Date.last = true := by decide
  have hne : Date.last ≠ eve := by decide
  refine ⟨rfl, hdays, hin, by decide, by decide, fun h => ?_, ?_, ?_⟩
  · have hmem := (h Date.last).mpr hin
    rw [hdays] at hmem
    exact hne (List.mem_singleton.mp hmem)
  · rw [hdays]
    decide
  · rw [hdays]
    decide +kernel

end Period

end FreeTime
