-- Slots: spans of time in which a set of resources is free.
import FreeTime.IdSet
import FreeTime.Span

namespace FreeTime

/-- A span with the resources that are free in it. -/
@[ext] structure Slot extends Span where
  ids : IdSet
deriving DecidableEq

namespace Slot

def single (span : Span) (id : Int) : Slot := ⟨span, IdSet.singleton id⟩

/-- Give every slot the same set of resources. -/
def retag (ids : IdSet) (slots : List Slot) : List Slot := slots.map fun s => ⟨s.toSpan, ids⟩

def sortsBefore (a b : Slot) : Bool := a.toSpan.sortsBefore b.toSpan

/-- The slots in order. Slots with equal spans keep the order they came in. -/
def sort (slots : List Slot) : List Slot := slots.mergeSort sortsBefore

end Slot

/-- Every slot stops before the next one starts. -/
def Separated (slots : List Slot) : Prop := slots.Pairwise fun a b => a.stop < b.start

instance (slots : List Slot) : Decidable (Separated slots) :=
  inferInstanceAs (Decidable (slots.Pairwise _))

/-- Every slot starts at or after the stop of the one before it. -/
def Disjoint (slots : List Slot) : Prop := slots.Pairwise fun a b => a.stop ≤ b.start

instance (slots : List Slot) : Decidable (Disjoint slots) :=
  inferInstanceAs (Decidable (slots.Pairwise _))

/-- An instant lies in one of the slots. -/
def CoveredBySlots (slots : List Slot) (t : Int) : Prop := ∃ s ∈ slots, s.Covers t

instance (slots : List Slot) (t : Int) : Decidable (CoveredBySlots slots t) :=
  inferInstanceAs (Decidable (∃ s ∈ slots, s.toSpan.Covers t))

end FreeTime
