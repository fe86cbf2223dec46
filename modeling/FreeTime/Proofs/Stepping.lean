-- The laws of stepping. A repeating rule steps from date to date and stops at the first one that is
-- past its last date. Stepping is held at the last date of the calendar, so a rule whose last date
-- that is never steps past it: it steps on for ever, however long the interval. Any other rule steps
-- to a later date each time, and ends.
import FreeTime.Proofs.Dates

namespace FreeTime

/-- Where stepping stands after so many steps of `interval` days. -/
def Date.stepped (start : Date) (interval : Nat) : Nat → Date
  | 0 => start
  | n + 1 => (start.stepped interval n).forward interval

/-- Stepping is past the last date after `n` steps, and was not before. -/
def Date.EndsAfter (start : Date) (interval : Nat) (last : Date) (n : Nat) : Prop :=
  last < start.stepped interval n ∧ ∀ m < n, start.stepped interval m ≤ last

/-- The dates at which stepping stood before it ended. -/
def Date.stepsBefore (start : Date) (interval n : Nat) : List Date :=
  (List.range n).map (start.stepped interval)

/-! ## Single steps -/

namespace Date

theorem stepped_day (start : Date) (interval n : Nat) :
    (start.stepped interval n).day = min (start.day + (n * interval : Nat)) lastDay := by
  induction n with
  | zero =>
    have := start.le_lastDay
    simp only [stepped, Nat.zero_mul]
    omega
  | succ n ih =>
    rw [stepped, forward_day_eq, ih, Nat.add_one_mul]
    omega

/-- One step and then some more are one step more. -/
theorem stepped_forward (start : Date) (interval n : Nat) :
    (start.forward interval).stepped interval n = start.stepped interval (n + 1) := by
  apply Date.ext
  rw [stepped_day, stepped_day, forward_day_eq, Nat.add_one_mul]
  omega

/-- A step leads to a later date, unless it is taken from the last date of the calendar. -/
theorem lt_forward {d : Date} {interval : Nat} (hpos : 1 ≤ interval) (h : d.day < lastDay) :
    d < d.forward interval := by
  rw [lt_iff, forward_day_eq]
  omega

theorem not_last_lt (d : Date) : ¬ Date.last < d := by
  have hlast := d.le_lastDay
  simp only [lt_iff, Date.last]
  omega

/-! ## Runs of steps -/

variable {start last : Date} {interval n : Nat}

theorem stepsBefore_succ (start : Date) (interval n : Nat) :
    start.stepsBefore interval (n + 1) = start :: (start.forward interval).stepsBefore interval n := by
  unfold stepsBefore
  rw [List.range_succ_eq_map, List.map_cons, List.map_map]
  congr 1
  exact List.map_congr_left fun m _ => (start.stepped_forward interval m).symm

theorem endsAfter_zero : start.EndsAfter interval last 0 ↔ last < start :=
  and_iff_left fun m hm => absurd hm (Nat.not_lt_zero m)

theorem endsAfter_succ : start.EndsAfter interval last (n + 1) ↔
    ¬ last < start ∧ (start.forward interval).EndsAfter interval last n := by
  unfold EndsAfter
  simp only [stepped_forward, not_lt]
  constructor
  · rintro ⟨hpast, hbefore⟩
    exact ⟨hbefore 0 (Nat.succ_pos n), hpast, fun m hm => hbefore (m + 1) (Nat.succ_lt_succ hm)⟩
  · rintro ⟨hstart, hpast, hbefore⟩
    refine ⟨hpast, fun m hm => ?_⟩
    cases m with
    | zero => exact hstart
    | succ m => exact hbefore m (Nat.lt_of_succ_lt_succ hm)

end Date

/-- Stepping ends within a budget just if it ends after so many steps as the budget has, or fewer;
the dates found are those at which it stood before. -/
theorem steppedDates_eq_some_iff {interval : Nat} {last : Date} (budget : Nat) {start : Date}
    {dates : List Date} :
    steppedDates? interval last budget start = some dates ↔
      ∃ n ≤ budget, start.EndsAfter interval last n ∧ dates = start.stepsBefore interval n := by
  induction budget generalizing start dates with
  | zero =>
    unfold steppedDates?
    simp only [Nat.le_zero, exists_eq_left, Date.endsAfter_zero]
    split
    · rename_i hpast
      rw [and_iff_right hpast, Option.some.injEq, eq_comm]
      rfl
    · rename_i hreached
      exact iff_of_false (fun h => by cases h) fun h => hreached h.1
  | succ budget ih =>
    unfold steppedDates?
    split
    · rename_i hpast
      constructor
      · intro h
        cases h
        exact ⟨0, Nat.zero_le _, Date.endsAfter_zero.mpr hpast, rfl⟩
      · rintro ⟨n, _, hends, rfl⟩
        cases n with
        | zero => rfl
        | succ n => exact absurd hpast (Date.endsAfter_succ.mp hends).1
    · rename_i hreached
      rw [Option.map_eq_some_iff]
      simp only [ih]
      constructor
      · rintro ⟨later, ⟨n, hn, hends, rfl⟩, rfl⟩
        exact ⟨n + 1, Nat.succ_le_succ hn, Date.endsAfter_succ.mpr ⟨hreached, hends⟩,
          (start.stepsBefore_succ interval n).symm⟩
      · rintro ⟨n, hn, hends, rfl⟩
        cases n with
        | zero => exact absurd (Date.endsAfter_zero.mp hends) hreached
        | succ n =>
          exact ⟨_, ⟨n, Nat.le_of_succ_le_succ hn, (Date.endsAfter_succ.mp hends).2, rfl⟩,
            (start.stepsBefore_succ interval n).symm⟩

/-- Up to the last date of the calendar stepping has no end, whatever the budget. -/
theorem steppedDates_last (interval budget : Nat) (start : Date) :
    steppedDates? interval Date.last budget start = none := by
  rw [Option.eq_none_iff_forall_ne_some]
  intro dates h
  obtain ⟨n, _, hends, _⟩ := (steppedDates_eq_some_iff budget).mp h
  exact Date.not_last_lt _ hends.1

namespace Rule

variable {r : Rule} {p : Period} {interval : Nat}

theorem dates_repeating (hkind : r.kind = .repeating) (hinterval : r.interval = some interval)
    (hpos : 1 ≤ interval) : r.dates p = r.repeatingDates? interval p := by
  simp only [Rule.dates, hkind, hinterval, hpos, if_true]

/-- A rule that does not step up to the last date of the calendar ends, and finds whole intervals
only. -/
theorem dates_stepped (hkind : r.kind = .repeating) (hinterval : r.interval = some interval)
    (hpos : 1 ≤ interval) (hlast : (r.stepsUpTo p).day < lastDay) :
    ∃ n, (r.stepsFrom interval p).EndsAfter interval (r.stepsUpTo p) n ∧
      r.dates p = some ((r.stepsFrom interval p).stepsBefore interval n) ∧
        ∀ d ∈ (r.stepsFrom interval p).stepsBefore interval n,
          ∃ k : Nat, (r.first.getD p.first).daysUntil d = k * interval := by
  obtain ⟨dates, hdates, hmem⟩ := r.repeatingDates_exact hpos hlast
  have hfound := (dates_repeating hkind hinterval hpos).trans hdates
  rw [repeatingDates_eq] at hdates
  obtain ⟨n, _, hends, rfl⟩ := (steppedDates_eq_some_iff _).mp hdates
  exact ⟨n, hends, hfound, fun d hd => ((hmem d).mp hd).2.2⟩

/-- A rule that steps up to the last date of the calendar has no list of dates. -/
theorem dates_of_endless (hkind : r.kind = .repeating) (hinterval : r.interval = some interval)
    (hpos : 1 ≤ interval) (hlast : r.stepsUpTo p = Date.last) : r.dates p = none := by
  rw [dates_repeating hkind hinterval hpos, repeatingDates_eq, hlast]
  exact steppedDates_last interval _ _

/-! ## The laws -/

/-- A repeating rule with a positive interval steps to an end just if it does not step up to the last
date of the calendar. If it ends, every step before the end leads to a later date, the dates found
are those at which it stood before the end, and each of them is a whole number of intervals away
from where the rule starts to count. -/
theorem stepping_ends_before_the_calendar_does (r : Rule) (p : Period) {interval : Nat}
    (hkind : r.kind = .repeating) (hinterval : r.interval = some interval) (hpos : 1 ≤ interval) :
    let start := r.stepsFrom interval p
    let last := r.stepsUpTo p
    ((∃ n, start.EndsAfter interval last n) ↔ last ≠ Date.last) ∧
      (last = Date.last → r.dates p = none ∧
        ∀ budget, steppedDates? interval last budget start = none) ∧
      (last ≠ Date.last →
        (∀ n, start.stepped interval n ≤ last →
          start.stepped interval n < start.stepped interval (n + 1)) ∧
        ∃ n, start.EndsAfter interval last n ∧
          r.dates p = some (start.stepsBefore interval n) ∧
          ∀ d ∈ start.stepsBefore interval n,
            ∃ k : Nat, (r.first.getD p.first).daysUntil d = k * interval) := by
  intro start last
  refine ⟨⟨?_, fun hne => ?_⟩, fun heq => ⟨?_, fun budget => ?_⟩, fun hne => ⟨fun n hn => ?_, ?_⟩⟩
  · rintro ⟨n, hpast, _⟩ heq
    exact Date.not_last_lt _ (heq ▸ hpast)
  · obtain ⟨n, hends, _⟩ := dates_stepped hkind hinterval hpos (Date.ne_last_iff.mp hne)
    exact ⟨n, hends⟩
  · exact dates_of_endless hkind hinterval hpos heq
  · rw [heq]
    exact steppedDates_last interval budget start
  · exact Date.lt_forward hpos (Int.lt_of_le_of_lt hn (Date.ne_last_iff.mp hne))
  · exact dates_stepped hkind hinterval hpos (Date.ne_last_iff.mp hne)

end Rule

/-! ## The end of the calendar -/

namespace Sample

/-- The last date of the calendar but one. -/
def lastEve : Date := ⟨95026235, by decide, by decide⟩

/-- Some days apart, from the start of the period on. -/
def apart (interval : Nat) : Rule :=
  { everyThirdDay with first := none, last := none, interval := some interval }

def lastTwoDays : Period := ⟨lastEve, Date.last, by decide⟩

end Sample

/-- The longest interval leads from the last date but one to the last date, where stepping is held:
that is past the end of a period that ends before, and one date is found. -/
theorem the_longest_interval_is_stepped_once :
    let rule := Sample.apart 4294967295
    let eve : Period := ⟨Sample.lastEve, Sample.lastEve, by decide⟩
    rule.kind = .repeating ∧ rule.interval = some 4294967295 ∧ 1 ≤ 4294967295 ∧
      rule.stepsUpTo eve ≠ Date.last ∧ rule.dates eve = some [Sample.lastEve] ∧
      (rule.stepsFrom 4294967295 eve).stepped 4294967295 1 = Date.last ∧
      (∃ n, (rule.stepsFrom 4294967295 eve).EndsAfter 4294967295 (rule.stepsUpTo eve) n) ∧
      ∃ k : Nat, Sample.lastEve.daysUntil Sample.lastEve = k * 4294967295 := by
  intro rule eve
  have hkind : rule.kind = .repeating := rfl
  have hinterval : rule.interval = some 4294967295 := rfl
  have hpos : 1 ≤ 4294967295 := by decide
  have hlast : rule.stepsUpTo eve ≠ Date.last := by decide
  have hdates : rule.dates eve = some [Sample.lastEve] := by decide +kernel
  have hheld : (rule.stepsFrom 4294967295 eve).stepped 4294967295 1 = Date.last := by
    decide +kernel
  obtain ⟨_, _, hfound⟩ := rule.stepping_ends_before_the_calendar_does eve hkind hinterval hpos
  obtain ⟨_, n, hends, hsteps, hgrid⟩ := hfound hlast
  rw [hdates, Option.some.injEq] at hsteps
  have hmem := hgrid Sample.lastEve (hsteps ▸ List.mem_singleton_self _)
  exact ⟨hkind, hinterval, hpos, hlast, hdates, hheld, ⟨n, hends⟩, hmem⟩

/-- Every week up to the last date of the calendar has no end. From the last date but one stepping
comes to the last date, which is a day away and not whole weeks, and there it stays. -/
theorem every_week_up_to_the_last_date_has_no_end :
    let rule := Sample.apart 7
    let start := rule.stepsFrom 7 Sample.lastTwoDays
    let last := rule.stepsUpTo Sample.lastTwoDays
    rule.kind = .repeating ∧ rule.interval = some 7 ∧ rule.dates Sample.lastTwoDays = none ∧
      (∀ budget, steppedDates? 7 last budget start = none) ∧
      (¬ ∃ n, start.EndsAfter 7 last n) ∧
      start.stepped 7 1 ≤ last ∧ ¬ start.stepped 7 1 < start.stepped 7 2 ∧
      ¬ ∃ k : Nat, (rule.first.getD Sample.lastTwoDays.first).daysUntil (start.stepped 7 1) =
        k * 7 := by
  intro rule start last
  have hlast : last = Date.last := by decide +kernel
  have hheld : start.stepped 7 1 = Date.last := by decide +kernel
  refine ⟨rfl, rfl, ?_, fun budget => ?_, ?_, ?_, ?_, ?_⟩
  · exact Rule.dates_of_endless rfl rfl (by decide) hlast
  · rw [hlast]
    exact steppedDates_last 7 budget start
  · rintro ⟨n, hpast, _⟩
    exact Date.not_last_lt _ (hlast ▸ hpast)
  · rw [hheld, hlast]
    exact Int.le_refl _
  · rw [hheld]
    exact Date.not_last_lt _
  · rintro ⟨k, hk⟩
    rw [hheld] at hk
    have hday : (rule.first.getD Sample.lastTwoDays.first).daysUntil Date.last = 1 := by
      decide +kernel
    omega

end FreeTime
