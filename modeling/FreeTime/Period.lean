-- Periods: runs of whole days, both ends included.
import FreeTime.Error
import FreeTime.Span

namespace FreeTime

/-- The days from `first` to `last`. -/
@[ext] structure Period where
  first : Date
  last : Date
  first_le : first ≤ last
deriving DecidableEq

namespace Period

/-- The period between two dates; the first may not be later than the second. -/
def between (first last : Date) : Except RequestError Period :=
  if h : first ≤ last then .ok ⟨first, last, h⟩ else .error (.periodOrder first last)

def length (p : Period) : Int := p.first.daysUntil p.last + 1

def contains (p : Period) (d : Date) : Bool := p.first ≤ d && d ≤ p.last

/-- How many days a period lists. The last date of the calendar has no next day, and a
listing that steps from each day to the next one leaves it out. -/
def listedLength (p : Period) : Nat :=
  (min p.last.day (lastDay - 1) - p.first.day + 1).toNat

def days (p : Period) : List Date := p.first.run p.listedLength

/-- The first days of a period, `most` of them at most. -/
def firstDays (p : Period) (most : Nat) : List Date := p.first.run (min most p.listedLength)

/-- The part of a period from one optional date to another, if any day is left. -/
def clip (p : Period) (first last : Option Date) : Option Period :=
  let first := match first with
    | some d => d.latest p.first
    | none => p.first
  let last := match last with
    | some d => d.earliest p.last
    | none => p.last
  if h : first ≤ last then some ⟨first, last, h⟩ else none

/-- The span of a period: from the midnight that opens its first day to the midnight that
closes its last day. -/
def window (p : Period) : Span :=
  let start := p.first.midnight
  ⟨start, start + p.length * dayMs⟩

end Period

end FreeTime
