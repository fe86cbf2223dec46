-- The dates of a rule in a period, and the spans they make. Dates may have no end, and a span may fail
-- its assertion; then there is no list of spans.
import FreeTime.Period
import FreeTime.Rule.Basic

namespace FreeTime

/-- A date of a rule, with the rule's hours. -/
structure Occurrence where
  date : Date
  hours : TimeRange
deriving DecidableEq

def Occurrence.span (o : Occurrence) : Except NoAnswer Span := o.hours.on o.date

/-- The days of the week are bits; a date is on one of them when its bit is set. -/
def onWeekday (weekdays : Nat) (d : Date) : Bool := weekdays &&& d.weekdayBit != 0

/-- The dates from `current` to `last`, `interval` days apart, if they end within a budget of
steps. Stepping stays at the calendar's last date once it is there, so the dates up to that
date never end. -/
def steppedDates? (interval : Nat) (last : Date) : Nat → Date → Option (List Date)
  | 0, current => if last < current then some [] else none
  | budget + 1, current =>
    if last < current then some []
    else (steppedDates? interval last budget (current.forward interval)).map (current :: ·)

namespace Rule

/-- The days of a period that lie between the rule's bounds, where they are set. -/
def boundedDays (r : Rule) (p : Period) : List Date :=
  match p.clip r.first r.last with
  | some part => part.days
  | none => []

/-- The first date of a repeating rule that is not before the period. The rule counts from
`anchor`; whole intervals that lie before the period are skipped in one step. -/
def aligned (interval : Nat) (anchor start : Date) : Date :=
  if anchor < start then
    let behind := (anchor.daysUntil start).toNat
    let near := anchor.forward (behind / interval * interval)
    if near < start then near.forward interval else near
  else anchor

/-- The dates of a repeating rule: every `interval` days from the rule's first date, or from
the start of the period where that is not set. -/
def repeatingDates? (interval : Nat) (r : Rule) (p : Period) : Option (List Date) :=
  let anchor := r.first.getD p.first
  let last := match r.last with
    | some d => d.earliest p.last
    | none => p.last
  let start := aligned interval anchor p.first
  steppedDates? interval last ((start.daysUntil last).toNat + 1) start

/-- The dates of a rule in a period. A rule that lacks what its kind needs has none. `none` where the
dates of a repeating rule have no end. -/
def dates (r : Rule) (p : Period) : Option (List Date) :=
  match r.kind with
  | .weekly =>
    match r.weekdays with
    | some weekdays => some ((r.boundedDays p).filter (onWeekday weekdays))
    | none => some []
  | .singleDate => some (r.date.filter p.contains).toList
  | .dateRange => some (r.boundedDays p)
  | .monthly =>
    match r.dayOfMonth with
    | some day => some ((r.boundedDays p).filter fun d => d.dayOfMonth = day)
    | none => some []
  | .repeating =>
    match r.interval with
    | some interval => if 1 ≤ interval then r.repeatingDates? interval p else some []
    | none => some []

/-- A date lies between the rule's bounds, where they are set. -/
def Bounds (r : Rule) (d : Date) : Prop := (∀ a ∈ r.first, a ≤ d) ∧ ∀ b ∈ r.last, d ≤ b

/-- What a rule says about a date of a period, by its kind. A single date has no bounds. A weekly
rule has the bit of the date's weekday, which is told by counting days from a Sunday. -/
def OccursOn (r : Rule) (p : Period) (d : Date) : Prop :=
  p.contains d ∧
    match r.kind with
    | .weekly => r.Bounds d ∧ ∃ weekdays ∈ r.weekdays, ∃ day : Nat, day < 7 ∧
        (∃ weeks : Int, Date.sunday.daysUntil d = weeks * 7 + day) ∧ weekdays.testBit day
    | .singleDate => r.date = some d
    | .dateRange => r.Bounds d
    | .monthly => r.Bounds d ∧ r.dayOfMonth = some d.dayOfMonth
    | .repeating => r.Bounds d ∧ ∃ interval ∈ r.interval, 1 ≤ interval ∧
        ∃ k : Nat, (r.first.getD p.first).daysUntil d = k * interval

def occurrences (r : Rule) (p : Period) : Option (List Occurrence) :=
  (r.dates p).map fun dates => dates.map fun d => ⟨d, r.hours⟩

/-- The spans of a rule in a period, made one after another once all its dates are found. -/
def spans (r : Rule) (p : Period) : Except NoAnswer (List Span) :=
  match r.occurrences p with
  | some occurrences => occurrences.mapM Occurrence.span
  | none => .error .neverEnds

/-- An instant lies in the hours of a rule on one of its dates in a period. -/
def CoversIn (r : Rule) (p : Period) (t : Int) : Prop :=
  ∃ dates ∈ r.dates p, ∃ d ∈ dates, (r.hours.endsOn d).Covers t

instance (r : Rule) (p : Period) (t : Int) : Decidable (r.CoversIn p t) :=
  inferInstanceAs (Decidable (∃ dates ∈ r.dates p, ∃ d ∈ dates, (r.hours.endsOn d).Covers t))

/-- The spans in which rules open and those in which they close. The rules are expanded one after
another. -/
def expand (p : Period) : List Rule → Except NoAnswer (List Span × List Span)
  | [] => .ok ([], [])
  | r :: rules => do
    let spans ← r.spans p
    let (opening, closing) ← expand p rules
    return if r.excludes then (opening, spans ++ closing) else (spans ++ opening, closing)

end Rule

end FreeTime
