-- How many bookings a resource carries at each instant, and when it can take no more.
import FreeTime.Span

namespace FreeTime

/-- How many of the spans cover an instant. -/
def occupancyAt (busy : List Span) (t : Int) : Nat := busy.countP fun s => decide (s.Covers t)

/-- The instants at which the occupancy changes, each with its change, in any order. -/
def edges (busy : List Span) : List (Int × Int) :=
  busy.flatMap fun s => [(s.start, 1), (s.stop, -1)]

/-- Add up the changes of equal instants, where the list is in the order of instants. -/
def foldEdges : List (Int × Int) → List (Int × Int)
  | [] => []
  | (t, d) :: rest =>
    match foldEdges rest with
    | [] => [(t, d)]
    | (u, e) :: more => if t = u then (t, d + e) :: more else (t, d) :: (u, e) :: more

/-- The changes of the occupancy, one for each instant, in order. -/
def changes (busy : List Span) : List (Int × Int) :=
  foldEdges ((edges busy).mergeSort fun a b => a.1 ≤ b.1)

/-- Put a span before others, joined to the first one if it stops where that starts. -/
def joinFront (s : Span) : List Span → List Span
  | [] => [s]
  | n :: rest => if s.stop = n.start then ⟨s.start, n.stop⟩ :: rest else s :: n :: rest

/-- The spans in which the occupancy is at least `capacity`, swept from change to change with
the occupancy reached so far. -/
def saturated (capacity level : Int) : List (Int × Int) → List Span
  | (t, d) :: (u, e) :: rest =>
    let later := saturated capacity (level + d) ((u, e) :: rest)
    if capacity ≤ level + d then joinFront ⟨t, u⟩ later else later
  | _ => []

/-- The spans in which a resource of the given capacity can take no further booking. A
capacity of zero counts as one; with a capacity of one every booking blocks. -/
def blockingSpans (busy : List Span) (capacity : Nat) : List Span :=
  if capacity ≤ 1 then Span.coalesce busy else saturated capacity 0 (changes busy)

end FreeTime
