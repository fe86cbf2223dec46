-- Normal lists of slots: sorted, with slots that overlap or touch made one. Slots are merged
-- by time alone, which joins their sets, or only where their sets are the same.
import FreeTime.Slot

namespace FreeTime

namespace Slot

/-- Carry a slot through later ones, in the order of their starts: a slot that meets or
touches what is carried is taken in with its resources, any other closes it. -/
def mergeFrom (carried : Slot) : List Slot → List Slot
  | [] => [carried]
  | s :: rest =>
    if s.start ≤ carried.stop then
      mergeFrom ⟨⟨carried.start, max carried.stop s.stop⟩, carried.ids.union s.ids⟩ rest
    else carried :: mergeFrom s rest

/-- Merge slots by time alone, where the list is in order. -/
def mergeByTime : List Slot → List Slot
  | [] => []
  | s :: rest => mergeFrom s rest

/-- Lengthen the newest slot that has the set of `s`, if it reaches the start of `s`, so that
it covers `s` too. Where it does not reach so far, no older slot with that set does. -/
def lengthen? (s : Slot) : List Slot → Option (List Slot)
  | [] => none
  | m :: rest =>
    if m.ids = s.ids then
      if s.start ≤ m.stop then some (⟨⟨m.start, max m.stop s.stop⟩, m.ids⟩ :: rest) else none
    else (lengthen? s rest).map (m :: ·)

/-- Take one more slot into a list kept newest first. Slots with other sets may stand
between two that merge. -/
def addExact (merged : List Slot) (s : Slot) : List Slot :=
  match lengthen? s merged with
  | some merged => merged
  | none => s :: merged

/-- Merge the slots that have the same set, where the list is in order. -/
def mergeBySet (slots : List Slot) : List Slot := (slots.foldl addExact []).reverse

/-- The slots in order, merged by time alone or, with `exact`, only where the sets are the
same. Merging by set can lengthen a slot past later ones, so the order is made again. -/
def normalize (exact : Bool) (slots : List Slot) : List Slot :=
  if exact then sort (mergeBySet (sort slots)) else mergeByTime (sort slots)

/-- The slots of several lists, made one normal list. -/
def unionAll (exact : Bool) (lists : List (List Slot)) : List Slot :=
  normalize exact lists.flatten

end Slot

end FreeTime
