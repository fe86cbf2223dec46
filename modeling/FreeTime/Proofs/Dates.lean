-- The laws of the dates of rules. A rule finds its dates by listing days, by sieving them or by
-- stepping through them; before the last date of the calendar these are the dates it speaks of, in
-- ascending order, with none missed and none made up.
import FreeTime.Proofs.Occurrences

namespace FreeTime

/-! ## Listed days -/

/-- Only the last date of the calendar has no later one. -/
theorem Date.ne_last_iff {d : Date} : d ≠ Date.last ↔ d.day < lastDay := by
  rw [ne_eq, Date.ext_iff, Int.lt_iff_le_and_ne]
  exact (and_iff_right d.le_lastDay).symm

namespace Period

/-- The days that a period lists are its days, but for the last date of the calendar. -/
theorem mem_days {p : Period} {d : Date} : d ∈ p.days ↔ p.contains d = true ∧ d ≠ Date.last := by
  rw [Date.ne_last_iff]
  constructor
  · intro h
    refine ⟨contains_of_mem_days h, ?_⟩
    obtain ⟨k, hk, rfl⟩ := List.mem_map.mp h
    rw [List.mem_range, listedLength] at hk
    rw [Date.forward_day (by omega)]
    omega
  · rintro ⟨h, hend⟩
    obtain ⟨hfirst, hlast⟩ := contains_iff.mp h
    rw [Date.le_iff] at hfirst hlast
    refine List.mem_map.mpr ⟨(p.first.daysUntil d).toNat, ?_, ?_⟩
    · rw [List.mem_range]
      simp only [listedLength, Date.daysUntil]
      omega
    · apply Date.ext
      rw [Date.forward_day_eq]
      simp only [Date.daysUntil]
      omega

/-- A period that ends before the last date of the calendar lists all its days. -/
theorem mem_days_iff {p : Period} {d : Date} (hp : p.last.day < lastDay) :
    d ∈ p.days ↔ p.contains d = true := by
  refine mem_days.trans (and_iff_left_of_imp fun h => ?_)
  exact Date.ne_last_iff.mpr (Int.lt_of_le_of_lt (contains_iff.mp h).2 hp)

end Period

theorem Rule.mem_boundedDays_iff {r : Rule} {p : Period} {d : Date} (hp : p.last.day < lastDay) :
    d ∈ r.boundedDays p ↔ p.contains d = true ∧ r.Bounds d := by
  refine ⟨mem_boundedDays, fun ⟨hd, hbounds⟩ => ?_⟩
  obtain ⟨part, hpart⟩ := Option.isSome_iff_exists.mp (Period.clip_isSome hd hbounds.1 hbounds.2)
  have hin : part.contains d = true := (Period.contains_clip_iff hpart).mpr ⟨hd, hbounds⟩
  -- The clipped period ends no later than the whole one.
  have hends : part.last ≤ p.last := by
    have hlast := Period.contains_iff.mpr ⟨part.first_le, Int.le_refl part.last.day⟩
    exact (Period.contains_iff.mp ((Period.contains_clip_iff hpart).mp hlast).1).2
  simp only [boundedDays, hpart]
  rw [Date.le_iff] at hends
  exact (Period.mem_days_iff (by omega)).mpr hin

/-! ## Stepping -/

/-- Stepping that is past the last date already reaches no date. -/
theorem not_reached_of_past {interval : Nat} {current last d : Date} (hpast : last < current) :
    ¬(d ≤ last ∧ ∃ k : Nat, d.day = current.day + (k * interval : Nat)) := by
  rintro ⟨hd, k, hk⟩
  rw [Date.le_iff] at hd
  rw [Date.lt_iff] at hpast
  omega

/-- Stepping ends, and finds the dates up to the last one that are whole intervals away. -/
theorem steppedDates_exact {interval : Nat} (hpos : 1 ≤ interval) {last : Date}
    (hlast : last.day < lastDay) (budget : Nat) (current : Date)
    (hbudget : last.day < current.day + budget) :
    ∃ dates, steppedDates? interval last budget current = some dates ∧
      ∀ d, d ∈ dates ↔ d ≤ last ∧ ∃ k : Nat, d.day = current.day + (k * interval : Nat) := by
  induction budget generalizing current with
  | zero =>
    have hpast : last < current := by
      rw [Date.lt_iff]
      omega
    refine ⟨[], by simp [steppedDates?, hpast], fun d => ?_⟩
    exact iff_of_false List.not_mem_nil (not_reached_of_past hpast)
  | succ budget ih =>
    unfold steppedDates?
    split
    · rename_i hpast
      exact ⟨[], rfl, fun d => iff_of_false List.not_mem_nil (not_reached_of_past hpast)⟩
    · rename_i hreached
      have hnext := current.forward_day_eq interval
      obtain ⟨later, hlater, hmem⟩ := ih (current.forward interval) (by omega)
      refine ⟨current :: later, by rw [hlater]; rfl, fun d => ?_⟩
      rw [Date.lt_iff] at hreached
      rw [List.mem_cons, hmem]
      constructor
      · rintro (rfl | ⟨hd, k, hk⟩)
        · exact ⟨by rw [Date.le_iff]; omega, 0, by simp⟩
        · -- The next date was not held at the last one, or it would lie behind `d`.
          refine ⟨hd, k + 1, ?_⟩
          rw [Date.le_iff] at hd
          rw [Nat.add_one_mul]
          omega
      · rintro ⟨hd, k, hk⟩
        cases k with
        | zero => exact Or.inl (Date.ext (by simpa using hk))
        | succ k =>
          refine Or.inr ⟨hd, k, ?_⟩
          rw [Date.le_iff] at hd
          rw [Nat.add_one_mul] at hk
          omega

namespace Rule

/-- The date up to which a repeating rule steps in a period. -/
def stepsUpTo (r : Rule) (p : Period) : Date := r.last.elim p.last (·.earliest p.last)

theorem le_stepsUpTo {r : Rule} {p : Period} {d : Date} :
    d ≤ r.stepsUpTo p ↔ d ≤ p.last ∧ ∀ b ∈ r.last, d ≤ b := Period.le_upper

theorem stepsUpTo_lt {r : Rule} {p : Period} (hp : p.last.day < lastDay) :
    (r.stepsUpTo p).day < lastDay :=
  Int.lt_of_le_of_lt (le_stepsUpTo.mp (Int.le_refl (r.stepsUpTo p).day)).1 hp

/-- The date from which a repeating rule steps in a period. -/
def stepsFrom (interval : Nat) (r : Rule) (p : Period) : Date :=
  aligned interval (r.first.getD p.first) p.first

theorem repeatingDates_eq (interval : Nat) (r : Rule) (p : Period) :
    r.repeatingDates? interval p =
      steppedDates? interval (r.stepsUpTo p)
        (((r.stepsFrom interval p).daysUntil (r.stepsUpTo p)).toNat + 1)
        (r.stepsFrom interval p) := by
  unfold repeatingDates? stepsUpTo stepsFrom
  cases r.last <;> rfl

/-- A repeating rule steps from where it is aligned to the period up to its last date there. -/
theorem repeatingDates_steps {interval : Nat} (hpos : 1 ≤ interval) {r : Rule} {p : Period}
    (hlast : (r.stepsUpTo p).day < lastDay) :
    ∃ dates, r.repeatingDates? interval p = some dates ∧ ∀ d, d ∈ dates ↔
      d ≤ r.stepsUpTo p ∧ ∃ k : Nat, d.day = (r.stepsFrom interval p).day + (k * interval : Nat) := by
  rw [repeatingDates_eq]
  refine steppedDates_exact hpos hlast _ _ ?_
  simp only [Date.daysUntil]
  omega

/-- The dates of a repeating rule are those between its bounds that are whole intervals away from
where it starts to count. -/
theorem repeatingDates_exact {interval : Nat} (hpos : 1 ≤ interval) {r : Rule} {p : Period}
    (hlast : (r.stepsUpTo p).day < lastDay) :
    ∃ dates, r.repeatingDates? interval p = some dates ∧
      ∀ d, d ∈ dates ↔ p.contains d = true ∧ r.Bounds d ∧
        ∃ k : Nat, (r.first.getD p.first).daysUntil d = k * interval := by
  obtain ⟨dates, hdates, hmem⟩ := r.repeatingDates_steps hpos hlast
  obtain ⟨m, haligned, hleast⟩ := aligned_eq hpos (r.first.getD p.first) p.first
  have hstart := (r.first.getD p.first).forward_day_eq (m * interval)
  rw [← haligned, ← stepsFrom] at hstart
  refine ⟨dates, hdates, fun d => ?_⟩
  constructor
  · intro hd
    obtain ⟨hend, k, hk⟩ := (hmem d).mp hd
    obtain ⟨hin, hbounds⟩ := repeatingDates_bounds hpos hdates d hd
    refine ⟨hin, hbounds, m + k, ?_⟩
    rw [Date.le_iff] at hend
    rw [Date.daysUntil, ← Int.natCast_mul, Nat.add_mul]
    omega
  · rintro ⟨hin, hbounds, k, hk⟩
    obtain ⟨hfirst, hin⟩ := Period.contains_iff.mp hin
    have hend : d ≤ r.stepsUpTo p := le_stepsUpTo.mpr ⟨hin, hbounds.2⟩
    refine (hmem d).mpr ⟨hend, k - m, ?_⟩
    rw [Date.daysUntil, ← Int.natCast_mul] at hk
    rw [Date.le_iff] at hfirst hend
    -- No fewer intervals than those of the alignment lead to a date of the period.
    have hm : m ≤ k := (hleast k).mp (by omega)
    have hsplit : (k - m) * interval + m * interval = k * interval := by
      rw [← Nat.add_mul, Nat.sub_add_cancel hm]
    omega

/-! ## Weekdays -/

/-- The bit of a weekday is common to a set of weekdays just if the set has that bit. -/
theorem and_shiftLeft_ne_zero_iff (weekdays day : Nat) :
    weekdays &&& 1 <<< day ≠ 0 ↔ weekdays.testBit day = true := by
  rw [Nat.one_shiftLeft]
  constructor
  · intro h
    obtain ⟨i, hi⟩ := Nat.exists_testBit_of_ne_zero h
    rw [Nat.testBit_and, Nat.testBit_two_pow, Bool.and_eq_true, decide_eq_true_eq] at hi
    exact hi.2 ▸ hi.1
  · intro h hzero
    have hbit : (weekdays &&& 2 ^ day).testBit day = true := by
      rw [Nat.testBit_and, Nat.testBit_two_pow_self, h]
      rfl
    rw [hzero, Nat.zero_testBit] at hbit
    cases hbit

/-- The weekday of a date is the number of days by which it follows a Sunday. -/
theorem weekday_eq_iff {d : Date} {day : Nat} :
    d.weekday = day ↔ day < 7 ∧ ∃ weeks : Int, Date.sunday.daysUntil d = weeks * 7 + day := by
  simp only [Date.weekday, Date.daysUntil, Date.sunday]
  constructor
  · rintro rfl
    exact ⟨by omega, (d.day + 4) / 7 - 1, by omega⟩
  · rintro ⟨hday, weeks, hweeks⟩
    omega

/-- The dates of a weekly rule are sieved by the bits of the weekdays that the rule has set. -/
theorem onWeekday_iff {weekdays : Nat} {d : Date} :
    onWeekday weekdays d = true ↔ ∃ day : Nat, day < 7 ∧
      (∃ weeks : Int, Date.sunday.daysUntil d = weeks * 7 + day) ∧ weekdays.testBit day = true := by
  simp only [← and_assoc, ← weekday_eq_iff, exists_eq_left']
  rw [onWeekday, bne_iff_ne]
  exact and_shiftLeft_ne_zero_iff weekdays d.weekday

/-! ## Dates -/

/-- In a period that ends before the last date of the calendar the dates of a rule come to an end,
and they are those of which the rule says that it occurs on them. -/
theorem dates_exact (r : Rule) {p : Period} (hp : p.last.day < lastDay) :
    ∃ dates, r.dates p = some dates ∧ ∀ d, d ∈ dates ↔ r.OccursOn p d := by
  unfold Rule.dates OccursOn
  cases hkind : r.kind with
  | weekly =>
    simp only
    cases r.weekdays with
    | none => exact ⟨[], rfl, fun d => by simp⟩
    | some weekdays =>
      refine ⟨_, rfl, fun d => ?_⟩
      simp [mem_boundedDays_iff hp, onWeekday_iff, and_assoc]
  | singleDate =>
    refine ⟨_, rfl, fun d => ?_⟩
    simp [Option.filter_eq_some_iff, and_comm]
  | dateRange => exact ⟨_, rfl, fun d => mem_boundedDays_iff hp⟩
  | monthly =>
    simp only
    cases r.dayOfMonth with
    | none => exact ⟨[], rfl, fun d => by simp⟩
    | some day =>
      refine ⟨_, rfl, fun d => ?_⟩
      simp [mem_boundedDays_iff hp, and_assoc, @eq_comm _ day]
  | repeating =>
    simp only
    cases r.interval with
    | none => exact ⟨[], rfl, fun d => by simp⟩
    | some interval =>
      simp only [Option.mem_def, Option.some.injEq, exists_eq_left']
      split
      · rename_i hpos
        obtain ⟨dates, hdates, hmem⟩ := r.repeatingDates_exact hpos (stepsUpTo_lt hp)
        refine ⟨dates, hdates, fun d => ?_⟩
        rw [hmem, and_iff_right hpos]
      · rename_i hzero
        exact ⟨[], rfl, fun d => by simp [hzero]⟩

theorem mem_dates_iff {r : Rule} {p : Period} (hp : p.last.day < lastDay) {dates : List Date}
    (h : r.dates p = some dates) {d : Date} : d ∈ dates ↔ r.OccursOn p d := by
  obtain ⟨found, hfound, hmem⟩ := r.dates_exact hp
  obtain rfl := Option.some.inj (hfound.symm.trans h)
  exact hmem d

end Rule

/-! ## Order -/

theorem Period.days_ascending (p : Period) : p.days.Pairwise (· < ·) := by
  unfold days Date.run
  rw [List.pairwise_map]
  refine List.Pairwise.imp_of_mem (fun hk hm hlt => ?_) List.pairwise_lt_range
  rw [List.mem_range, listedLength] at hk hm
  -- Within the listed length no day is held at the last date.
  have hlast := p.last.le_lastDay
  rw [Date.lt_iff, Date.forward_day (by omega), Date.forward_day (by omega)]
  omega

/-- Every step leads to a later date, as none is taken from the last date of the calendar. -/
theorem steppedDates_ascending {interval : Nat} (hpos : 1 ≤ interval) {last : Date}
    (hlast : last.day < lastDay) (budget : Nat) {current : Date} {dates : List Date}
    (h : steppedDates? interval last budget current = some dates) : dates.Pairwise (· < ·) := by
  induction budget generalizing current dates with
  | zero =>
    unfold steppedDates? at h
    split at h
    · cases h
      exact List.Pairwise.nil
    · cases h
  | succ budget ih =>
    unfold steppedDates? at h
    split at h
    · cases h
      exact List.Pairwise.nil
    · rename_i hreached
      obtain ⟨later, hlater, rfl⟩ := Option.map_eq_some_iff.mp h
      refine List.pairwise_cons.mpr ⟨fun d hd => ?_, ih hlater⟩
      have hd := (steppedDates_bounds budget hlater d hd).1
      rw [Date.le_iff, Date.forward_day_eq] at hd
      rw [Date.lt_iff] at hreached ⊢
      omega

namespace Rule

theorem boundedDays_ascending (r : Rule) (p : Period) : (r.boundedDays p).Pairwise (· < ·) := by
  unfold boundedDays
  split
  · exact Period.days_ascending _
  · exact List.Pairwise.nil

theorem repeatingDates_ascending {interval : Nat} (hpos : 1 ≤ interval) {r : Rule} {p : Period}
    (hlast : (r.stepsUpTo p).day < lastDay) {dates : List Date}
    (h : r.repeatingDates? interval p = some dates) : dates.Pairwise (· < ·) := by
  rw [repeatingDates_eq] at h
  exact steppedDates_ascending hpos hlast _ h

/-- The dates of a rule stand in ascending order, each once. -/
theorem dates_ascending {r : Rule} {p : Period} (hp : p.last.day < lastDay) {dates : List Date}
    (h : r.dates p = some dates) : dates.Pairwise (· < ·) := by
  unfold Rule.dates at h
  split at h
  · split at h <;> cases h
    · exact (boundedDays_ascending r p).filter _
    · exact List.Pairwise.nil
  · cases h
    cases r.date.filter p.contains with
    | none => exact List.Pairwise.nil
    | some d => exact List.pairwise_singleton _ _
  · cases h
    exact boundedDays_ascending r p
  · split at h <;> cases h
    · exact (boundedDays_ascending r p).filter _
    · exact List.Pairwise.nil
  · split at h
    · split at h
      · exact repeatingDates_ascending ‹_› (stepsUpTo_lt hp) h
      · cases h
        exact List.Pairwise.nil
    · cases h
      exact List.Pairwise.nil

theorem occurrences_of_dates {r : Rule} {p : Period} {dates : List Date}
    (h : r.dates p = some dates) :
    r.occurrences p = some (dates.map fun d => ⟨d, r.hours⟩) := by
  rw [occurrences, h]
  rfl

/-! ## The laws -/

/-- In a period that ends before the last date of the calendar a rule, of whatever kind and with
whatever fields set, occurs on the dates that it speaks of and on no others: in ascending order,
each once, and always for its hours. -/
theorem a_rule_occurs_on_the_dates_it_speaks_of (r : Rule) {p : Period}
    (hp : p.last.day < lastDay) :
    ∃ occurrences, r.occurrences p = some occurrences ∧
      (occurrences.map Occurrence.date).Pairwise (· < ·) ∧
      (∀ o ∈ occurrences, o.hours = r.hours) ∧
      ∀ d, d ∈ occurrences.map Occurrence.date ↔ r.OccursOn p d := by
  obtain ⟨dates, hdates, hmem⟩ := r.dates_exact hp
  have hback : (dates.map fun d => (⟨d, r.hours⟩ : Occurrence)).map Occurrence.date = dates := by
    simp [Function.comp_def]
  refine ⟨_, occurrences_of_dates hdates, ?_, fun o ho => ?_, fun d => ?_⟩
  · rw [hback]
    exact dates_ascending hp hdates
  · obtain ⟨d, _, rfl⟩ := List.mem_map.mp ho
    rfl
  · rw [hback]
    exact hmem d

end Rule

/-! ## Every third day, and Mondays and Wednesdays -/

namespace Sample

/-- Every third day from 2025-06-02 on, up to 2025-06-13. -/
def everyThirdDay : Rule where
  id := 1
  kind := .repeating
  excludes := false
  first := some ⟨20241, by decide, by decide⟩
  last := some ⟨20252, by decide, by decide⟩
  date := none
  hours := .untilEndOfDay .midnight
  weekdays := none
  dayOfMonth := none
  interval := some 3
  resources := [1]

/-- The bits of Monday and Wednesday. -/
def mondaysAndWednesdays : Rule := { everyThirdDay with kind := .weekly, weekdays := some 10 }

/-- The seven days from Sunday, 2025-06-08, on. -/
def week : Period := ⟨⟨20247, by decide, by decide⟩, ⟨20253, by decide, by decide⟩, by decide⟩

end Sample

/-- Counting from before the week, the first rule occurs on the eighth and the eleventh, and no more
on the fourteenth, as it stops within the week. The second one occurs on the Monday, which is the
ninth, and on the Wednesday, and on no other day. -/
theorem every_third_day_and_two_weekdays_of_a_week :
    let eighth : Date := ⟨20247, by decide, by decide⟩
    let ninth : Date := ⟨20248, by decide, by decide⟩
    let eleventh : Date := ⟨20250, by decide, by decide⟩
    Sample.week.last.day < lastDay ∧
      Sample.everyThirdDay.dates Sample.week = some [eighth, eleventh] ∧
      (∀ d, d ∈ [eighth, eleventh] ↔ Sample.everyThirdDay.OccursOn Sample.week d) ∧
      Sample.mondaysAndWednesdays.dates Sample.week = some [ninth, eleventh] ∧
      ∀ d, d ∈ [ninth, eleventh] ↔ Sample.mondaysAndWednesdays.OccursOn Sample.week d := by
  intro eighth ninth eleventh
  have hlast : Sample.week.last.day < lastDay := by decide
  have hthird : Sample.everyThirdDay.dates Sample.week = some [eighth, eleventh] := rfl
  have hweekly : Sample.mondaysAndWednesdays.dates Sample.week = some [ninth, eleventh] := rfl
  obtain ⟨found, hfound, _, _, hmem⟩ :=
    Rule.a_rule_occurs_on_the_dates_it_speaks_of Sample.everyThirdDay hlast
  obtain ⟨found', hfound', _, _, hmem'⟩ :=
    Rule.a_rule_occurs_on_the_dates_it_speaks_of Sample.mondaysAndWednesdays hlast
  rw [Rule.occurrences_of_dates hthird, Option.some.injEq] at hfound
  rw [Rule.occurrences_of_dates hweekly, Option.some.injEq] at hfound'
  subst hfound hfound'
  exact ⟨hlast, hthird, hmem, hweekly, hmem'⟩

end FreeTime
