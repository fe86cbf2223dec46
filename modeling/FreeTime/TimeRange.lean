-- Ranges of the day. A range starts at a time and stops at a later time of the same day, or
-- runs on to the midnight that closes the day, so a whole day touches the next one.
import FreeTime.Span

namespace FreeTime

/-- A range of times of day. Without a stop it runs to the end of the day. -/
@[ext] structure TimeRange where
  start : TimeOfDay
  stop : Option TimeOfDay
  start_lt : ∀ t ∈ stop, start < t

namespace TimeRange

instance : DecidableEq TimeRange := fun a b =>
  decidable_of_iff (a.start = b.start ∧ a.stop = b.stop) TimeRange.ext_iff.symm

/-- The range between two times; the first has to be the earlier one. -/
def between (start stop : TimeOfDay) : Except RequestError TimeRange :=
  if h : start < stop then .ok ⟨start, some stop, by rintro t ⟨⟩; exact h⟩
  else .error (.timeOrder start stop)

def untilEndOfDay (start : TimeOfDay) : TimeRange := ⟨start, none, by rintro t ⟨⟩⟩

def atHour (hour : Nat) : Except RequestError TimeOfDay :=
  match TimeOfDay.of? hour 0 0 0 with
  | some t => .ok t
  | none => .error (.hourOutOfRange hour)

/-- The range between two whole hours. Hour 24 may be the stop. -/
def hours (start stop : Nat) : Except RequestError TimeRange := do
  let first ← atHour start
  if stop = 24 then return untilEndOfDay first
  let second ← atHour stop
  between first second

def startMs (r : TimeRange) : Int := r.start.milliseconds

/-- The milliseconds from midnight to the stop of the range. -/
def stopMs (r : TimeRange) : Int :=
  match r.stop with
  | some t => t.milliseconds
  | none => dayMs

/-- Two ranges share time on the same day; touching is not enough. -/
def overlaps (a b : TimeRange) : Bool := a.startMs < b.stopMs && a.stopMs > b.startMs

/-- The instants at which a range starts and stops on a date. -/
def endsOn (r : TimeRange) (d : Date) : Span := ⟨d.midnight + r.startMs, d.midnight + r.stopMs⟩

/-- The span that a range covers on a date. Times in order may be the same down to the millisecond,
or a leap second may lie between them: then the span does not start before it stops, and making it
panics. -/
def on (r : TimeRange) (d : Date) : Except NoAnswer Span := (r.endsOn d).asserted

/-- The ways in which the stop at the end of the day may be written; the second is used. -/
def endOfDay : List String := ["24:00", "24:00:00"]

/-- The stop of a range as text. -/
def stopText (r : TimeRange) : String :=
  match r.stop with
  | some t => t.text
  | none => "24:00:00"

/-- The range with a given start and a stop that is given as text. -/
def ofStopText (start : TimeOfDay) (stop : String) : Except RequestError TimeRange :=
  if stop ∈ endOfDay then .ok (untilEndOfDay start)
  else
    match TimeOfDay.ofText? stop with
    | some t => between start t
    | none => .error (.notATime stop)

end TimeRange

end FreeTime
