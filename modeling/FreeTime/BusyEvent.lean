-- Bookings: moments between which some resources are taken.
import FreeTime.Error
import FreeTime.Span

namespace FreeTime

/-- A booking of resources. It lasts for at least one whole millisecond. -/
structure BusyEvent where
  id : Int
  start : Moment
  stop : Moment
  resources : List Int
  start_lt : start.instant < stop.instant
deriving DecidableEq

namespace BusyEvent

/-- The booking between two moments; the first has to be at an earlier instant. -/
def between (id : Int) (start stop : Moment) (resources : List Int) :
    Except RequestError BusyEvent :=
  if h : start.instant < stop.instant then .ok ⟨id, start, stop, resources, h⟩
  else .error (.eventOrder id)

def span (e : BusyEvent) : Span := ⟨e.start.instant, e.stop.instant⟩

/-- One fact for each time that a booking names a resource. -/
def facts (e : BusyEvent) : List (Int × Span) := e.resources.map fun id => (id, e.span)

/-- The order in which bookings are listed: by start, and by id where the starts agree. -/
def sortsBefore (a b : BusyEvent) : Bool :=
  a.start.before b.start || (a.start = b.start && a.id ≤ b.id)

end BusyEvent

end FreeTime
