-- The laws of occurrences: the dates of a rule lie in the period and, unless it names one date,
-- between its bounds. So a rule that cannot occur by its bounds has no dates.
import FreeTime.Rule.Occurrence
import FreeTime.Proofs.Spans
import FreeTime.Store

namespace FreeTime

/-! ## Dates -/

namespace Date

variable {a b d : Date}

theorem le_iff : a ≤ b ↔ a.day ≤ b.day := Iff.rfl

theorem lt_iff : a < b ↔ a.day < b.day := Iff.rfl

theorem latest_le : a.latest b ≤ d ↔ a ≤ d ∧ b ≤ d := by
  unfold latest
  split <;> simp only [le_iff] at * <;> omega

theorem le_earliest : d ≤ a.earliest b ↔ d ≤ a ∧ d ≤ b := by
  unfold earliest
  split <;> simp only [le_iff] at * <;> omega

theorem le_trans (hab : a ≤ b) (hbd : b ≤ d) : a ≤ d := by
  simp only [le_iff] at *
  omega

theorem not_lt : ¬ a < b ↔ b ≤ a := by
  simp only [le_iff, lt_iff]
  omega

theorem forward_day_eq (d : Date) (days : Nat) :
    (d.forward days).day = min (d.day + days) lastDay := by
  unfold forward
  split
  · simp only
    omega
  · simp only [last]
    omega

/-- Stepping forward never leads back, also where it is held at the last date. -/
theorem le_forward (d : Date) (days : Nat) : d ≤ d.forward days := by
  have hlast := d.le_lastDay
  rw [le_iff, forward_day_eq]
  omega

theorem forward_forward (d : Date) (a b : Nat) :
    (d.forward a).forward b = d.forward (a + b) := by
  apply Date.ext
  simp only [forward_day_eq]
  omega

end Date

namespace Period

variable {p : Period} {d : Date}

theorem contains_iff : p.contains d = true ↔ p.first ≤ d ∧ d ≤ p.last := by
  simp [contains]

/-- A listed day is a day of the period. -/
theorem contains_of_mem_days (h : d ∈ p.days) : p.contains d = true := by
  obtain ⟨k, hk, rfl⟩ := List.mem_map.mp h
  rw [List.mem_range, listedLength] at hk
  have hlast : p.last.day ≤ lastDay := p.last.le_lastDay
  have hday : (p.first.forward k).day = p.first.day + k := Date.forward_day (by omega)
  rw [contains_iff]
  simp only [Date.le_iff, hday]
  omega

theorem clip_eq (p : Period) (first last : Option Date) :
    p.clip first last =
      if h : first.elim p.first (·.latest p.first) ≤ last.elim p.last (·.earliest p.last) then
        some ⟨_, _, h⟩
      else none := by
  cases first <;> cases last <;> rfl

theorem lower_le {first : Option Date} :
    first.elim p.first (·.latest p.first) ≤ d ↔ p.first ≤ d ∧ ∀ a ∈ first, a ≤ d := by
  cases first with
  | none => simp
  | some a => simp [Date.latest_le, and_comm]

theorem le_upper {last : Option Date} :
    d ≤ last.elim p.last (·.earliest p.last) ↔ d ≤ p.last ∧ ∀ b ∈ last, d ≤ b := by
  cases last with
  | none => simp
  | some b => simp [Date.le_earliest, and_comm]

/-- The days of the clipped period are those of the period, between the bounds. -/
theorem contains_clip_iff {first last : Option Date} {part : Period}
    (h : p.clip first last = some part) :
    part.contains d = true ↔ p.contains d = true ∧ (∀ a ∈ first, a ≤ d) ∧ ∀ b ∈ last, d ≤ b := by
  rw [clip_eq] at h
  split at h
  · cases h
    rw [contains_iff, contains_iff, lower_le, le_upper, and_and_and_comm]
  · cases h

/-- A period with a day between two bounds can be clipped to them. -/
theorem clip_isSome {first last : Option Date} (hd : p.contains d = true)
    (hfirst : ∀ a ∈ first, a ≤ d) (hlast : ∀ b ∈ last, d ≤ b) : (p.clip first last).isSome := by
  obtain ⟨hp, hp'⟩ := contains_iff.mp hd
  rw [clip_eq, dif_pos (Date.le_trans (lower_le.mpr ⟨hp, hfirst⟩) (le_upper.mpr ⟨hp', hlast⟩))]
  rfl

end Period

/-! ## Repeating dates -/

theorem steppedDates_bounds {interval : Nat} {last : Date} (budget : Nat) {current : Date}
    {dates : List Date} (h : steppedDates? interval last budget current = some dates) :
    ∀ d ∈ dates, current ≤ d ∧ d ≤ last := by
  induction budget generalizing current dates with
  | zero =>
    unfold steppedDates? at h
    split at h
    · cases h
      simp
    · cases h
  | succ budget ih =>
    unfold steppedDates? at h
    split at h
    · cases h
      simp
    · rename_i hge
      obtain ⟨later, hlater, rfl⟩ := Option.map_eq_some_iff.mp h
      refine List.forall_mem_cons.mpr ⟨⟨Int.le_refl _, Date.not_lt.mp hge⟩, fun d hd => ?_⟩
      obtain ⟨hd, hlast⟩ := ih hlater d hd
      exact ⟨Date.le_trans (current.le_forward interval) hd, hlast⟩

namespace Rule

/-- Alignment steps forward from the anchor by whole intervals: by as few of them as lead to the
start or beyond it. -/
theorem aligned_eq {interval : Nat} (hpos : 1 ≤ interval) (anchor start : Date) :
    ∃ m : Nat, aligned interval anchor start = anchor.forward (m * interval) ∧
      ∀ k : Nat, start.day ≤ anchor.day + (k * interval : Nat) ↔ m ≤ k := by
  unfold aligned
  split
  · rename_i hlt
    simp only
    generalize hbehind : (anchor.daysUntil start).toNat = behind
    generalize hwhole : behind / interval = whole
    have hday : start.day = anchor.day + behind := by
      simp only [Date.daysUntil, Date.lt_iff] at hbehind hlt
      omega
    -- The whole intervals do not pass the start, and one more does.
    have hskip : whole * interval ≤ behind := hwhole ▸ Nat.div_mul_le_self behind interval
    have hover : behind < (whole + 1) * interval := by
      rw [← hwhole, Nat.add_one_mul]
      exact Nat.lt_div_mul_add hpos
    have hnear := anchor.forward_day_eq (whole * interval)
    have hlast := start.le_lastDay
    have hmono : ∀ k m : Nat, k ≤ m → k * interval ≤ m * interval :=
      fun k m h => Nat.mul_le_mul_right interval h
    split
    · rename_i hshort
      rw [Date.lt_iff] at hshort
      refine ⟨whole + 1, ?_, fun k => ⟨fun h => ?_, fun h => ?_⟩⟩
      · rw [Date.forward_forward, Nat.add_one_mul]
      · apply Nat.lt_of_not_le
        intro hk
        have := hmono k whole hk
        omega
      · have := hmono (whole + 1) k h
        omega
    · rename_i hreached
      rw [Date.lt_iff] at hreached
      refine ⟨whole, rfl, fun k => ⟨fun h => ?_, fun h => ?_⟩⟩
      · apply Nat.le_of_not_lt
        intro hk
        have := hmono (k + 1) whole hk
        rw [Nat.add_one_mul] at this
        omega
      · have := hmono whole k h
        omega
  · rename_i hge
    rw [Date.lt_iff] at hge
    refine ⟨0, ?_, fun k => ⟨fun _ => Nat.zero_le k, fun _ => by omega⟩⟩
    apply Date.ext
    have := anchor.le_lastDay
    rw [Date.forward_day_eq]
    omega

/-- Alignment leads neither behind the anchor nor before the period. -/
theorem le_aligned {interval : Nat} (hpos : 1 ≤ interval) (anchor start : Date) :
    anchor ≤ aligned interval anchor start ∧ start ≤ aligned interval anchor start := by
  obtain ⟨m, haligned, hleast⟩ := aligned_eq hpos anchor start
  rw [haligned]
  refine ⟨anchor.le_forward _, ?_⟩
  have hreach := (hleast m).mpr (Nat.le_refl m)
  have hlast := start.le_lastDay
  rw [Date.le_iff, Date.forward_day_eq]
  omega

theorem repeatingDates_bounds {interval : Nat} (hpos : 1 ≤ interval) {r : Rule} {p : Period}
    {dates : List Date} (h : r.repeatingDates? interval p = some dates) :
    ∀ d ∈ dates, p.contains d = true ∧ r.Bounds d := by
  intro d hd
  obtain ⟨hstart, hstop⟩ := steppedDates_bounds _ h d hd
  obtain ⟨hanchor, hfirst⟩ := le_aligned hpos (r.first.getD p.first) p.first
  have hupper : d ≤ p.last ∧ ∀ b ∈ r.last, d ≤ b := by
    cases hlast : r.last with
    | none =>
      rw [hlast] at hstop
      exact ⟨hstop, by simp⟩
    | some b =>
      rw [hlast] at hstop
      simpa [and_comm] using Date.le_earliest.mp hstop
  refine ⟨Period.contains_iff.mpr ⟨Date.le_trans hfirst hstart, hupper.1⟩, ?_, hupper.2⟩
  intro a ha
  rw [Option.mem_def] at ha
  rw [ha] at hanchor hstart
  exact Date.le_trans hanchor hstart

/-! ## Dates of rules -/

theorem mem_boundedDays {r : Rule} {p : Period} {d : Date} (h : d ∈ r.boundedDays p) :
    p.contains d = true ∧ r.Bounds d := by
  unfold boundedDays at h
  split at h
  · rename_i part hclip
    exact (Period.contains_clip_iff hclip).mp (Period.contains_of_mem_days h)
  · cases h

/-- Every date of a rule is a day of the period, and keeps to the bounds of the rule unless the
rule names one date. -/
theorem mem_dates {r : Rule} {p : Period} {dates : List Date} (h : r.dates p = some dates)
    {d : Date} (hd : d ∈ dates) :
    p.contains d = true ∧ if r.kind = .singleDate then r.date = some d else r.Bounds d := by
  unfold Rule.dates at h
  cases hkind : r.kind with
  | weekly =>
    rw [hkind] at h
    simp only at h
    split at h <;> cases h
    · exact mem_boundedDays (List.mem_filter.mp hd).1
    · cases hd
  | singleDate =>
    rw [hkind] at h
    cases h
    obtain ⟨hdate, hp⟩ := Option.filter_eq_some_iff.mp (Option.mem_toList.mp hd)
    exact ⟨hp, hdate⟩
  | dateRange =>
    rw [hkind] at h
    cases h
    exact mem_boundedDays hd
  | monthly =>
    rw [hkind] at h
    simp only at h
    split at h <;> cases h
    · exact mem_boundedDays (List.mem_filter.mp hd).1
    · cases hd
  | repeating =>
    rw [hkind] at h
    simp only at h
    split at h
    · split at h
      · rename_i hpos
        exact repeatingDates_bounds hpos h d hd
      · cases h
        cases hd
    · cases h
      cases hd

/-- A repeating rule whose bounds leave no day of the period stops before its first step. -/
theorem repeatingDates_of_not_mayOccur {interval : Nat} (hpos : 1 ≤ interval) {r : Rule} {p : Period}
    (h : (p.clip r.first r.last).isSome = false) : r.repeatingDates? interval p = some [] := by
  obtain ⟨hanchor, hstart⟩ := le_aligned hpos (r.first.getD p.first) p.first
  have hlower : r.first.elim p.first (·.latest p.first) ≤
      aligned interval (r.first.getD p.first) p.first := by
    refine Period.lower_le.mpr ⟨hstart, fun a ha => ?_⟩
    rw [Option.mem_def.mp ha] at hanchor ⊢
    exact hanchor
  have hpast : r.last.elim p.last (·.earliest p.last) <
      aligned interval (r.first.getD p.first) p.first := by
    rw [Period.clip_eq] at h
    split at h
    · cases h
    · rename_i hturned
      rw [Date.lt_iff]
      rw [Date.le_iff] at hturned hlower
      omega
  unfold repeatingDates?
  cases hlast : r.last <;> rw [hlast] at hpast <;> simp only <;>
    exact if_pos hpast

/-- A rule that may not occur in a period has no date there. -/
theorem dates_of_not_mayOccur {r : Rule} {p : Period} (h : Store.mayOccur r p = false) :
    r.dates p = some [] := by
  have hends : ∃ dates, r.dates p = some dates := by
    unfold Rule.dates
    cases hkind : r.kind with
    | weekly => cases r.weekdays <;> exact ⟨_, rfl⟩
    | singleDate => exact ⟨_, rfl⟩
    | dateRange => exact ⟨_, rfl⟩
    | monthly => cases r.dayOfMonth <;> exact ⟨_, rfl⟩
    | repeating =>
      rw [Store.mayOccur, hkind] at h
      cases r.interval with
      | none => exact ⟨_, rfl⟩
      | some interval =>
        simp only
        split
        · exact ⟨_, repeatingDates_of_not_mayOccur ‹_› h⟩
        · exact ⟨_, rfl⟩
  obtain ⟨dates, hdates⟩ := hends
  rw [hdates, Option.some.injEq]
  apply List.eq_nil_iff_forall_not_mem.mpr
  intro d hd
  obtain ⟨hp, hrule⟩ := mem_dates hdates hd
  have hmay : Store.mayOccur r p = true := by
    unfold Store.mayOccur
    split at hrule
    · rename_i hkind
      simp [hkind, hrule, hp]
    · have hclip := Period.clip_isSome hp hrule.1 hrule.2
      cases hkind : r.kind <;> first | exact hclip | contradiction
  rw [h] at hmay
  cases hmay

end Rule

end FreeTime
