-- Spans of time: half-open intervals of instants, in milliseconds.
import FreeTime.Error

namespace FreeTime

/-- The instants from `start` up to, and not including, `stop`. -/
@[ext] structure Span where
  start : Int
  stop : Int
deriving DecidableEq

namespace Span

def Covers (s : Span) (t : Int) : Prop := s.start ≤ t ∧ t < s.stop

instance (s : Span) (t : Int) : Decidable (s.Covers t) :=
  inferInstanceAs (Decidable (s.start ≤ t ∧ t < s.stop))

def Proper (s : Span) : Prop := s.start < s.stop

instance (s : Span) : Decidable s.Proper := inferInstanceAs (Decidable (s.start < s.stop))

/-- Making a span asserts that it starts before it stops. -/
def asserted (s : Span) : Except NoAnswer Span := if s.Proper then .ok s else .error .panics

def duration (s : Span) : Int := s.stop - s.start

/-- Two spans share more than an edge. -/
def overlaps (a b : Span) : Bool := a.start < b.stop && b.start < a.stop

/-- The first span reaches over all of the second. -/
def contains (a b : Span) : Bool := a.start ≤ b.start && b.stop ≤ a.stop

/-- What two spans share, if it is more than an edge. -/
def intersection (a b : Span) : Option Span :=
  let start := max a.start b.start
  let stop := min a.stop b.stop
  if start < stop then some ⟨start, stop⟩ else none

/-- The order in which spans are sorted: by start, and by stop where the starts agree. -/
def sortsBefore (a b : Span) : Bool :=
  a.start < b.start || (a.start = b.start && a.stop ≤ b.stop)

/-- Carry a span through later ones, in the order of their starts: a span that meets or
touches what is carried is taken in, any other closes it. -/
def mergeFrom (carried : Span) : List Span → List Span
  | [] => [carried]
  | s :: rest =>
    if s.start ≤ carried.stop then mergeFrom ⟨carried.start, max carried.stop s.stop⟩ rest
    else carried :: mergeFrom s rest

/-- Merge spans that overlap or touch, where the list is in the order of starts. -/
def merge : List Span → List Span
  | [] => []
  | s :: rest => mergeFrom s rest

/-- The spans in order, with overlapping and touching ones made one. -/
def coalesce (spans : List Span) : List Span := merge (spans.mergeSort sortsBefore)

/-- What is left of the span from `cursor` to `stop` when the blocks are cut out one after
another. A block that starts at or after `stop` ends the cutting. -/
def carve (cursor stop : Int) : List Span → List Span
  | [] => [⟨cursor, stop⟩]
  | block :: rest =>
    if stop ≤ block.start then [⟨cursor, stop⟩]
    else
      let free := if cursor < block.start then [⟨cursor, block.start⟩] else []
      let next := max cursor block.stop
      if stop ≤ next then free else free ++ carve next stop rest

/-- What is left of a span when blocks, in the order of their starts, are cut out of it. -/
def punch (base : Span) (blocks : List Span) : List Span :=
  carve base.start base.stop (blocks.dropWhile fun b => b.stop ≤ base.start)

theorem intersection_covers {a b c : Span} (h : a.intersection b = some c) (t : Int) :
    c.Covers t ↔ a.Covers t ∧ b.Covers t := by
  unfold intersection at h
  simp only at h
  split at h
  · cases h
    simp only [Covers]
    omega
  · cases h

theorem intersection_eq_none {a b : Span} (h : a.intersection b = none) (t : Int) :
    ¬ (a.Covers t ∧ b.Covers t) := by
  unfold intersection at h
  simp only at h
  split at h
  · cases h
  · simp only [Covers]
    omega

end Span

/-- An instant lies in one of the spans. -/
def CoveredBy (spans : List Span) (t : Int) : Prop := ∃ s ∈ spans, s.Covers t

instance (spans : List Span) (t : Int) : Decidable (CoveredBy spans t) :=
  inferInstanceAs (Decidable (∃ s ∈ spans, s.Covers t))

end FreeTime
