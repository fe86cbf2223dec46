-- Instants. An instant is a number of milliseconds from 1970-01-01 00:00 UTC. Dates carry no
-- zone and are read as UTC. A moment is a date with a time of day, finer than an instant.
import FreeTime.Calendar.Date
import FreeTime.Calendar.TimeOfDay

namespace FreeTime

def minuteMs : Int := 60000

def dayMs : Int := 86400000

namespace Date

/-- The instant at which a date begins. -/
def midnight (d : Date) : Int := d.day * dayMs

def instant (d : Date) (t : TimeOfDay) : Int := d.midnight + t.milliseconds

end Date

/-- A date and a time of day, both in UTC. -/
@[ext] structure Moment where
  date : Date
  time : TimeOfDay
deriving DecidableEq

namespace Moment

/-- The instant of a moment. What is below a millisecond is dropped, so the instant is never
later than the moment, before 1970 as after it. -/
def instant (m : Moment) : Int := m.date.instant m.time

/-- Moments in order: by date, and by time on the same date. -/
def before (a b : Moment) : Bool :=
  a.date < b.date || (a.date = b.date && a.time < b.time)

/-- The moment that a clock ahead of UTC by `minutes` calls `date` and `time`, if the
calendar reaches it. Seconds are the same in every zone. -/
def ofZoned? (date : Date) (time : TimeOfDay) (minutes : Int) : Option Moment :=
  let minuteOfDay := (time.hour * 60 + time.minute : Nat) - minutes
  let utc := (minuteOfDay % 1440).toNat
  match date.shift? (minuteOfDay / 1440) with
  | none => none
  | some day =>
    some ⟨day, utc / 60, utc % 60, time.second, time.nano, by omega, by omega, time.second_le,
      time.nano_lt⟩

end Moment

end FreeTime
