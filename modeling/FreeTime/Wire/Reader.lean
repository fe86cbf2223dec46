-- Reading values from JSON and writing them. A reader says no without a reason when the JSON
-- has the wrong shape, and with a reason when the shape is right and the value is refused.
import FreeTime.Error
import FreeTime.IdSet
import FreeTime.Json.Basic

namespace FreeTime.Wire

inductive ReadError where
  | malformed
  | refused (cause : RequestError)
deriving DecidableEq

abbrev Reader (α : Type) := Json → Except ReadError α

/-! ## Plain values -/

/-- The least number that is read as an id, an instant or a count of minutes: the least one of
64 bits. -/
def leastInt : Int := -9223372036854775808

def mostInt : Int := 9223372036854775807

/-- The largest capacity, day of the month, interval or hour: 32 bits without a sign. -/
def mostCount : Nat := 4294967295

/-- The largest set of weekdays: eight bits. -/
def mostWeekdays : Nat := 255

/-- A whole number of 64 bits. -/
def int : Reader Int
  | .int n => if leastInt ≤ n ∧ n ≤ mostInt then .ok n else .error .malformed
  | _ => .error .malformed

/-- A whole number from zero to a limit. -/
def natUpTo (most : Nat) : Reader Nat
  | .int n => if 0 ≤ n ∧ n ≤ most then .ok n.toNat else .error .malformed
  | _ => .error .malformed

def count : Reader Nat := natUpTo mostCount

def flag : Reader Bool
  | .bool b => .ok b
  | _ => .error .malformed

def text : Reader String
  | .text s => .ok s
  | _ => .error .malformed

/-- A string that stands for a value. -/
def parsed {α : Type} (parse : String → Option α) : Reader α
  | .text s =>
    match parse s with
    | some value => .ok value
    | none => .error .malformed
  | _ => .error .malformed

/-- A value that goes by a name. The name may also be the only key of an object, over null. -/
def named {α : Type} (find : String → Option α) : Reader α
  | .object [(name, .null)] => parsed find (.text name)
  | j => parsed find j

/-- The items of an array, read one after another. -/
def each {α : Type} (read : Reader α) : List Json → Except ReadError (List α)
  | [] => .ok []
  | item :: items => do
    let first ← read item
    let others ← each read items
    return first :: others

def list {α : Type} (read : Reader α) : Reader (List α)
  | .array items => each read items
  | _ => .error .malformed

def ids : Reader (List Int) := list int

/-- A set of ids, in any order and with repeats. -/
def idSet : Reader IdSet := fun j => do return IdSet.ofList (← ids j)

def optional {α : Type} (read : Reader α) : Reader (Option α)
  | .null => .ok none
  | j => some <$> read j

/-- A value that was checked after it was read; a refusal is kept with its cause. -/
def checked {α : Type} (read : Reader (Except RequestError α)) : Reader α := fun j => do
  match ← read j with
  | .ok value => return value
  | .error cause => throw (.refused cause)

/-! ## Writing -/

def writeList {α : Type} (write : α → Json) (values : List α) : Json := .array (values.map write)

def writeIds (ids : List Int) : Json := writeList Json.int ids

def writeIdSet (ids : IdSet) : Json := writeIds ids.toList

def writeOption {α : Type} (write : α → Json) : Option α → Json
  | some value => write value
  | none => .null

def writeNat (n : Nat) : Json := .int n

end FreeTime.Wire
