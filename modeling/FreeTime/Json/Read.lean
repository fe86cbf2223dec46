-- From tokens to a JSON value. The arrays and objects that are open around the current place
-- stand on a stack, innermost first.
import FreeTime.Json.Token

namespace FreeTime.Json

/-- An object's members with their keys, none for a garbled one. -/
abbrev Entries := List (Option String × Json)

/-- The value that members make. A garbled key garbles the whole. -/
def ofEntries (entries : Entries) : Json :=
  match entries.mapM fun e => e.1.map fun key => (key, e.2) with
  | some members => .object members
  | none => .garbled

def ofString : Option String → Json
  | some value => .text value
  | none => .garbled

/-- An open array with its items, or an open object with its members and the key whose value
is being read; both last first. -/
inductive Frame where
  | array (items : List Json)
  | object (members : Entries) (key : Option String)

/-- What may come next: a value, the first item or the end of an array, the first key or the
end of an object, a further key, the colon after a key, or whatever follows a value. -/
inductive Awaiting where
  | value
  | firstItem
  | firstKey
  | nextKey (members : Entries)
  | colon (members : Entries) (key : Option String)
  | rest (value : Json)

/-- Read a token where a value may begin. -/
def beginValue? (frames : List Frame) : Token → Option (List Frame × Awaiting)
  | .atom value => some (frames, .rest value)
  | .text value => some (frames, .rest (ofString value))
  | .openArray => some (.array [] :: frames, .firstItem)
  | .openObject => some (frames, .firstKey)
  | _ => none

/-- Read one more token. -/
def readToken? : List Frame × Awaiting → Token → Option (List Frame × Awaiting)
  | (frames, .value), token => beginValue? frames token
  | (.array _ :: frames, .firstItem), .closeArray => some (frames, .rest (.array []))
  | (frames, .firstItem), token => beginValue? frames token
  | (frames, .firstKey), .closeObject => some (frames, .rest (.object []))
  | (frames, .firstKey), .text key => some (frames, .colon [] key)
  | (frames, .nextKey members), .text key => some (frames, .colon members key)
  | (frames, .colon members key), .colon => some (.object members key :: frames, .value)
  | (.array items :: frames, .rest value), .comma =>
    some (.array (value :: items) :: frames, .value)
  | (.array items :: frames, .rest value), .closeArray =>
    some (frames, .rest (.array (value :: items).reverse))
  | (.object members key :: frames, .rest value), .comma =>
    some (frames, .nextKey ((key, value) :: members))
  | (.object members key :: frames, .rest value), .closeObject =>
    some (frames, .rest (ofEntries ((key, value) :: members).reverse))
  | _, _ => none

def ofText? (text : String) : Option Json := do
  let tokens ← tokens? text
  match ← tokens.foldlM readToken? ([], .value) with
  | ([], .rest value) => some value
  | _ => none

end FreeTime.Json
