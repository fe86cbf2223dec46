-- Slots cut into pieces of one length.
import FreeTime.Slot

namespace FreeTime

/-- The length of the pieces, and whether a shorter last piece is kept. -/
structure Slicing where
  duration : Int
  keepsTail : Bool
deriving DecidableEq

/-- The latest instant that fits into 64 bits. -/
def lastInstant : Int := 9223372036854775807

namespace Slicing

/-- The pieces of a slot from a cursor on. As long as a whole piece fits before the stop it is cut off
and the cursor moves on, and then the shorter piece that is left over is kept or dropped. The stop of
the next piece is worked out before it is known to fit, and panics where it is past the last
instant; so does making a piece that does not start before it stops. -/
def cutFrom (c : Slicing) (s : Slot) (t : Int) : Except NoAnswer (List Slot) :=
  if lastInstant < t + c.duration then .error .panics
  else if _hfits : t + c.duration ≤ s.stop then
    if _hproper : t < t + c.duration then do
      return ⟨⟨t, t + c.duration⟩, s.ids⟩ :: (← c.cutFrom s (t + c.duration))
    else .error .panics
  else if c.keepsTail ∧ t < s.stop then .ok [⟨⟨t, s.stop⟩, s.ids⟩]
  else .ok []
termination_by (s.stop - t).toNat

/-- The pieces of the slots, slot by slot from the start of each. -/
def slice (c : Slicing) : List Slot → Except NoAnswer (List Slot)
  | [] => .ok []
  | s :: rest => do
    let pieces ← c.cutFrom s s.start
    return pieces ++ (← c.slice rest)

end Slicing

end FreeTime
