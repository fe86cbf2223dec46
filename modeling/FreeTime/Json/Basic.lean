-- JSON values. Whole numbers of 64 bits are kept apart from all other numbers, which are never
-- read as ids, instants or counts.
import FreeTime.Json.Number

namespace FreeTime

/-- A JSON value. A real number is a sign, digits and a power of ten; the members of an object
keep their order. Garbled is what is well formed and yet no value: a string with half of a
surrogate pair on its own, or an object with such a key. -/
inductive Json where
  | null
  | bool (value : Bool)
  | int (value : Int)
  | real (negative : Bool) (digits : Nat) (exponent : Int)
  | text (value : String)
  | array (items : List Json)
  | object (members : List (String × Json))
  | garbled

namespace Json

/-- The member of an object with a key. -/
def member? (key : String) : Json → Option Json
  | object members => members.lookup key
  | _ => none

/-- A value that can be kept without being looked at: no more than `depth` arrays and objects
stand inside each other, every string is a text, and every number is one that can be held. -/
def fitsWithin : Nat → Json → Bool
  | 0, array _ => false
  | 0, object _ => false
  | depth + 1, array items => items.all (fitsWithin depth)
  | depth + 1, object members => members.all fun m => fitsWithin depth m.2
  | _, real _ digits exponent => isFinite digits exponent
  | _, garbled => false
  | _, _ => true

end Json

end FreeTime
