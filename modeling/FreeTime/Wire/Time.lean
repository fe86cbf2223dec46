-- Dates, spans, rules and bookings as JSON.
import FreeTime.BusyEvent
import FreeTime.Period
import FreeTime.Rule.Basic
import FreeTime.Slot
import FreeTime.Wire.Record

namespace FreeTime.Wire

/-! ## Dates and times -/

def readDate : Reader Date := parsed Date.ofText?

def writeDate (d : Date) : Json := .text d.text

def readTime : Reader TimeOfDay := parsed TimeOfDay.ofText?

def writeTime (t : TimeOfDay) : Json := .text t.text

/-- A moment, written as text at any offset. -/
def readMoment : Reader Moment := parsed Moment.ofText?

/-- The text of a moment, without an offset. -/
def writeMoment (m : Moment) : Json := .text m.text

/-- A range of the day. Its stop is a string of its own, which may name the end of the day. -/
def readTimeRange : Reader TimeRange :=
  checked <| record <| TimeRange.ofStopText <$> required "start" readTime <*> required "end" text

def writeTimeRange (r : TimeRange) : Json :=
  .object [("start", writeTime r.start), ("end", .text r.stopText)]

/-- A period, unless it starts after it ends. -/
def readPeriod : Reader Period :=
  checked <| record <| Period.between <$> required "from" readDate <*> required "to" readDate

def writePeriod (p : Period) : Json :=
  .object [("from", writeDate p.first), ("to", writeDate p.last)]

/-! ## Spans and slots -/

def spanFields : Fields Span := Span.mk <$> required "start" int <*> required "end" int

def readSpan : Reader Span := record spanFields

def writeSpan (s : Span) : Json := .object [("start", .int s.start), ("end", .int s.stop)]

def readSlot : Reader Slot :=
  record <| Slot.mk <$> spanFields <*> required "resource_ids" idSet

def writeSlot (s : Slot) : Json :=
  .object [("start", .int s.start), ("end", .int s.stop), ("resource_ids", writeIdSet s.ids)]

/-! ## Rules and bookings -/

def readRuleKind : Reader RuleKind := named fun s => RuleKind.all.find? (·.name = s)

def writeRuleKind (kind : RuleKind) : Json := .text kind.name

/-- A rule. What its kind does not need may be left out, and it opens unless it says that it
closes. -/
def readRule : Reader Rule :=
  record <| Rule.mk
    <$> required "id" int
    <*> required "kind" readRuleKind
    <*> withDefault "is_exclude" false flag
    <*> optionalMember "from" readDate
    <*> optionalMember "to" readDate
    <*> optionalMember "date" readDate
    <*> required "time_range" readTimeRange
    <*> optionalMember "weekday_mask" (natUpTo mostWeekdays)
    <*> optionalMember "day_of_month" count
    <*> optionalMember "interval_days" count
    <*> required "resource_ids" ids

/-- A rule with all its members; those that it does without are null. -/
def writeRule (r : Rule) : Json :=
  .object [("id", .int r.id), ("kind", writeRuleKind r.kind), ("is_exclude", .bool r.excludes),
    ("from", writeOption writeDate r.first), ("to", writeOption writeDate r.last),
    ("date", writeOption writeDate r.date), ("time_range", writeTimeRange r.hours),
    ("weekday_mask", writeOption writeNat r.weekdays),
    ("day_of_month", writeOption writeNat r.dayOfMonth),
    ("interval_days", writeOption writeNat r.interval), ("resource_ids", writeIds r.resources)]

/-- A booking, unless it ends before it starts. -/
def readBusyEvent : Reader BusyEvent :=
  checked <| record <| BusyEvent.between
    <$> required "id" int
    <*> required "start" readMoment
    <*> required "end" readMoment
    <*> required "resource_ids" ids

def writeBusyEvent (e : BusyEvent) : Json :=
  .object [("id", .int e.id), ("start", writeMoment e.start), ("end", writeMoment e.stop),
    ("resource_ids", writeIds e.resources)]

end FreeTime.Wire
