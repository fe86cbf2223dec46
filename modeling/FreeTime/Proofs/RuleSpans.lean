-- The laws of expanding rules. A rule can be expanded in a period when its dates come to an end and
-- its hours hold a whole millisecond; its spans are then its hours, put on its dates. A row of rules
-- is expanded when each of them can be.
import FreeTime.Proofs.Dates
import FreeTime.Proofs.Runs

namespace FreeTime

/-! ## Spans that are asserted -/

namespace Span

theorem asserted_eq_ok_iff {a b : Span} : a.asserted = .ok b ↔ a.Proper ∧ b = a := by
  unfold asserted
  split
  · rename_i hproper
    rw [Except.ok.injEq, eq_comm]
    exact (and_iff_right hproper).symm
  · rename_i hturned
    exact iff_of_false (fun h => by cases h) fun h => hturned h.1

theorem asserted_eq_error {a : Span} {e : NoAnswer} (h : a.asserted = .error e) : e = .panics := by
  unfold asserted at h
  split at h <;> cases h
  rfl

end Span

variable {α : Type} {f : α → Span}

/-- Spans that are made one after another are made just if each of them is proper. -/
theorem mapM_asserted_eq_ok_iff {xs : List α} {spans : List Span} :
    (xs.mapM fun x => (f x).asserted) = .ok spans ↔ AllProper (xs.map f) ∧ spans = xs.map f := by
  induction xs generalizing spans with
  | nil =>
    rw [List.mapM_nil, List.map_nil]
    refine ⟨fun h => ⟨fun _ hs => (List.not_mem_nil hs).elim, (Except.ok.inj h).symm⟩, ?_⟩
    rintro ⟨_, rfl⟩
    rfl
  | cons x xs ih =>
    rw [List.mapM_cons, List.map_cons]
    simp only [bind_eq_ok, Span.asserted_eq_ok_iff, ih]
    constructor
    · rintro ⟨_, ⟨hproper, rfl⟩, _, ⟨hrest, rfl⟩, h⟩
      exact ⟨List.forall_mem_cons.mpr ⟨hproper, hrest⟩, (Except.ok.inj h).symm⟩
    · rintro ⟨hall, rfl⟩
      obtain ⟨hproper, hrest⟩ := List.forall_mem_cons.mp hall
      exact ⟨_, ⟨hproper, rfl⟩, _, ⟨hrest, rfl⟩, rfl⟩

theorem mapM_asserted_eq_error {xs : List α} {e : NoAnswer}
    (h : (xs.mapM fun x => (f x).asserted) = .error e) : e = .panics := by
  induction xs with
  | nil => cases h
  | cons x xs ih =>
    rw [List.mapM_cons, bind_eq_error] at h
    rcases h with h | ⟨_, _, h⟩
    · exact Span.asserted_eq_error h
    · rcases bind_eq_error.mp h with h | ⟨_, _, h⟩
      · exact ih h
      · cases h

/-! ## Hours on dates -/

namespace TimeRange

/-- A range of the day has a start before its stop, and both lie in the day. -/
def InDay (r : TimeRange) : Prop :=
  0 ≤ r.startMs ∧ r.startMs < r.stopMs ∧ r.stopMs ≤ dayMs

instance (r : TimeRange) : Decidable r.InDay := inferInstanceAs (Decidable (_ ∧ _ ∧ _))

/-- A range holds a whole millisecond on one date just as it does on any other. -/
theorem endsOn_proper_iff {r : TimeRange} {d : Date} :
    (r.endsOn d).Proper ↔ r.startMs < r.stopMs := by
  simp only [endsOn, Span.Proper]
  omega

theorem on_eq_ok_iff {r : TimeRange} {d : Date} {span : Span} :
    r.on d = .ok span ↔ r.startMs < r.stopMs ∧ span = r.endsOn d := by
  rw [on, Span.asserted_eq_ok_iff, endsOn_proper_iff]

end TimeRange

/-- Where a range of the day is put on a date, it lies in the window of a period just when the date
is one of its days. -/
theorem Period.window_covers_iff (p : Period) {hours : TimeRange} (h : hours.InDay) {d : Date}
    {t : Int} (ht : (hours.endsOn d).Covers t) : p.window.Covers t ↔ p.contains d = true := by
  obtain ⟨hstart, _, hstop⟩ := h
  rw [contains_iff, Date.le_iff, Date.le_iff]
  simp only [Span.Covers, TimeRange.endsOn, window, length, Date.daysUntil, Date.midnight,
    dayMs] at ht hstop ⊢
  omega

/-! ## One rule -/

namespace Rule

/-- A rule can be expanded in a period: its dates come to an end, and if it has any, its hours hold a
whole millisecond. -/
def Expands (r : Rule) (p : Period) : Prop :=
  ∃ dates, r.dates p = some dates ∧ (dates = [] ∨ r.hours.startMs < r.hours.stopMs)

variable {r : Rule} {p : Period} {spans : List Span}

/-- Before the last date of the calendar a rule can be expanded if its hours hold a millisecond. -/
theorem expands_of_lt (hp : p.last.day < lastDay) (h : r.hours.startMs < r.hours.stopMs) :
    r.Expands p := by
  obtain ⟨dates, hdates, _⟩ := r.dates_exact hp
  exact ⟨dates, hdates, Or.inr h⟩

theorem spans_of_dates {dates : List Date} (h : r.dates p = some dates) :
    r.spans p = dates.mapM r.hours.on := by
  rw [Rule.spans, occurrences_of_dates h]
  simp only [List.mapM_map]
  rfl

/-- The spans of a rule are its hours on its dates. -/
theorem spans_eq_ok_iff : r.spans p = .ok spans ↔ ∃ dates, r.dates p = some dates ∧
    AllProper (dates.map r.hours.endsOn) ∧ spans = dates.map r.hours.endsOn := by
  cases hdates : r.dates p with
  | none =>
    rw [Rule.spans, occurrences, hdates]
    constructor
    · intro h
      cases h
    · rintro ⟨_, ⟨⟩, _⟩
  | some dates =>
    rw [spans_of_dates hdates]
    simp only [Option.some.injEq, exists_eq_left']
    exact mapM_asserted_eq_ok_iff

theorem spans_eq_error {e : NoAnswer} (h : r.spans p = .error e) :
    e = .panics ∨ e = .neverEnds := by
  cases hdates : r.dates p with
  | none =>
    rw [Rule.spans, occurrences, hdates] at h
    cases h
    exact Or.inr rfl
  | some dates =>
    rw [spans_of_dates hdates] at h
    exact Or.inl (mapM_asserted_eq_error h)

theorem spans_ok_iff : (∃ spans, r.spans p = .ok spans) ↔ r.Expands p := by
  simp only [spans_eq_ok_iff, Expands]
  constructor
  · rintro ⟨_, dates, hdates, hproper, _⟩
    refine ⟨dates, hdates, ?_⟩
    cases dates with
    | nil => exact Or.inl rfl
    | cons d dates =>
      exact Or.inr (TimeRange.endsOn_proper_iff.mp (hproper (r.hours.endsOn d) (by simp)))
  · rintro ⟨dates, hdates, h⟩
    refine ⟨_, dates, hdates, fun span hspan => ?_, rfl⟩
    obtain ⟨d, hd, rfl⟩ := List.mem_map.mp hspan
    rcases h with rfl | h
    · cases hd
    · exact TimeRange.endsOn_proper_iff.mpr h

theorem spans_proper (h : r.spans p = .ok spans) : AllProper spans := by
  obtain ⟨_, _, hproper, rfl⟩ := spans_eq_ok_iff.mp h
  exact hproper

theorem coveredBy_spans (h : r.spans p = .ok spans) (t : Int) :
    CoveredBy spans t ↔ r.CoversIn p t := by
  obtain ⟨dates, hdates, _, rfl⟩ := spans_eq_ok_iff.mp h
  simp only [CoversIn, CoveredBy, hdates, Option.mem_def, Option.some.injEq, exists_eq_left',
    List.mem_map]
  constructor
  · rintro ⟨_, ⟨d, hd, rfl⟩, hc⟩
    exact ⟨d, hd, hc⟩
  · rintro ⟨d, hd, hc⟩
    exact ⟨_, ⟨d, hd, rfl⟩, hc⟩

/-- A rule that can have no date in a period covers nothing there. -/
theorem not_coversIn_of_not_mayOccur (h : Store.mayOccur r p = false) (t : Int) :
    ¬ r.CoversIn p t := by
  rintro ⟨dates, hdates, d, hd, _⟩
  cases (dates_of_not_mayOccur h).symm.trans hdates
  cases hd

/-- Hours of the day are covered in the window of the period only. -/
theorem window_covers_of_coversIn (h : r.hours.InDay) {t : Int} (ht : r.CoversIn p t) :
    p.window.Covers t := by
  obtain ⟨dates, hdates, d, hd, ht⟩ := ht
  exact (p.window_covers_iff h ht).mpr (mem_dates hdates hd).1

/-- Before the last date of the calendar a rule covers its hours on the dates it speaks of. -/
theorem coversIn_iff (hp : p.last.day < lastDay) {t : Int} :
    r.CoversIn p t ↔ ∃ d, r.OccursOn p d ∧ (r.hours.endsOn d).Covers t := by
  obtain ⟨dates, hdates, _⟩ := r.dates_exact hp
  simp only [CoversIn, hdates, Option.mem_def, Option.some.injEq, exists_eq_left',
    mem_dates_iff hp hdates]

theorem spans_eq_nil_iff (h : r.spans p = .ok spans) : spans = [] ↔ r.occurrences p = some [] := by
  obtain ⟨dates, hdates, _, rfl⟩ := spans_eq_ok_iff.mp h
  simp [occurrences_of_dates hdates]

/-! ## Rules in a row -/

/-- What it means for two lists of spans to be those in which rules open and close. -/
structure Opens (rules : List Rule) (p : Period) (opening closing : List Span) : Prop where
  proper : AllProper opening
  opened : ∀ t, CoveredBy opening t ↔ ∃ r ∈ rules, r.excludes = false ∧ r.CoversIn p t
  closed : ∀ t, CoveredBy closing t ↔ ∃ r ∈ rules, r.excludes = true ∧ r.CoversIn p t
  barren : opening = [] ↔ ∀ r ∈ rules, r.excludes = false → r.occurrences p = some []

theorem opens_of_expand {rules : List Rule} {opening closing : List Span}
    (h : expand p rules = .ok (opening, closing)) : Opens rules p opening closing := by
  induction rules generalizing opening closing with
  | nil =>
    cases h
    exact ⟨fun _ hs => (List.not_mem_nil hs).elim, by simp, by simp, by simp⟩
  | cons r rules ih =>
    obtain ⟨spans, hspans, h⟩ := bind_eq_ok.mp h
    obtain ⟨⟨later, shut⟩, hlater, h⟩ := bind_eq_ok.mp h
    have hrest := ih hlater
    cases hexcludes : r.excludes with
    | true =>
      simp only [hexcludes] at h
      cases h
      refine ⟨hrest.proper, fun t => ?_, fun t => ?_, ?_⟩
      · simp [hrest.opened, hexcludes]
      · simp [hrest.closed, hexcludes, coveredBy_spans hspans]
      · simp [hrest.barren, hexcludes]
    | false =>
      simp only [hexcludes] at h
      cases h
      refine ⟨fun s hs => ?_, fun t => ?_, fun t => ?_, ?_⟩
      · exact (List.mem_append.mp hs).elim (spans_proper hspans s) (hrest.proper s)
      · simp [hrest.opened, hexcludes, coveredBy_spans hspans]
      · simp [hrest.closed, hexcludes]
      · simp [hrest.barren, hexcludes, spans_eq_nil_iff hspans]

/-- A row of rules is expanded just if each of them can be. -/
theorem expand_ok_iff {rules : List Rule} :
    (∃ spans, expand p rules = .ok spans) ↔ ∀ r ∈ rules, r.Expands p := by
  induction rules with
  | nil => exact iff_of_true ⟨_, rfl⟩ fun _ hr => (List.not_mem_nil hr).elim
  | cons r rules ih =>
    rw [List.forall_mem_cons, ← ih, ← spans_ok_iff]
    constructor
    · rintro ⟨_, h⟩
      obtain ⟨spans, hspans, h⟩ := bind_eq_ok.mp h
      obtain ⟨rest, hrest, _⟩ := bind_eq_ok.mp h
      exact ⟨⟨spans, hspans⟩, rest, hrest⟩
    · rintro ⟨⟨spans, hspans⟩, rest, hrest⟩
      exact exists_ok_bind hspans (exists_ok_bind hrest ⟨_, rfl⟩)

theorem expand_eq_error {rules : List Rule} {e : NoAnswer} (h : expand p rules = .error e) :
    e = .panics ∨ e = .neverEnds := by
  induction rules with
  | nil => cases h
  | cons r rules ih =>
    rcases bind_eq_error.mp h with h | ⟨_, _, h⟩
    · exact spans_eq_error h
    · rcases bind_eq_error.mp h with h | ⟨_, _, h⟩
      · exact ih h
      · cases h

end Rule

end FreeTime
