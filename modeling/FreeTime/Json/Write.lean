-- JSON values as text, on one line or indented.
import FreeTime.Json.Basic

namespace FreeTime.Json

def hex4 (n : Nat) : List Char :=
  [n / 4096, n / 256, n / 16, n].map fun k => Nat.digitChar (k % 16)

/-- A character as it stands in a string. -/
def escape (c : Char) : List Char :=
  if c = '"' then ['\\', '"']
  else if c = '\\' then ['\\', '\\']
  else if c = '\n' then ['\\', 'n']
  else if c = '\r' then ['\\', 'r']
  else if c = '\t' then ['\\', 't']
  else if c = '\x08' then ['\\', 'b']
  else if c = '\x0c' then ['\\', 'f']
  else if c.toNat < 0x20 then '\\' :: 'u' :: hex4 c.toNat
  else [c]

def quote (s : String) : String := String.ofList ('"' :: s.toList.flatMap escape ++ ['"'])

/-- A number, a truth value or null. -/
def atomText : Json → String
  | bool value => if value then "true" else "false"
  | int value => toString value
  | real negative digits exponent =>
    (if negative then "-" else "") ++ toString digits ++ "e" ++ toString exponent
  | text value => quote value
  | _ => "null"

mutual

/-- The value on one line. -/
def render : Json → String
  | array items => "[" ++ ",".intercalate (renderItems items) ++ "]"
  | object members => "\x7b" ++ ",".intercalate (renderMembers members) ++ "\x7d"
  | value => value.atomText

def renderItems : List Json → List String
  | [] => []
  | item :: items => render item :: renderItems items

def renderMembers : List (String × Json) → List String
  | [] => []
  | (key, value) :: members => (quote key ++ ":" ++ render value) :: renderMembers members

end

/-- Lines between two brackets, or the brackets alone when there are none. -/
def block (opening closing : String) (indent : String) (lines : List String) : String :=
  if lines.isEmpty then opening ++ closing
  else
    let inner := "\n" ++ indent ++ "  "
    opening ++ inner ++ ("," ++ inner).intercalate lines ++ "\n" ++ indent ++ closing

mutual

/-- The value on several lines, set in by two blanks for each array or object around it. -/
def pretty (indent : String) : Json → String
  | array items => block "[" "]" indent (prettyItems (indent ++ "  ") items)
  | object members => block "\x7b" "\x7d" indent (prettyMembers (indent ++ "  ") members)
  | value => value.atomText

def prettyItems (indent : String) : List Json → List String
  | [] => []
  | item :: items => pretty indent item :: prettyItems indent items

def prettyMembers (indent : String) : List (String × Json) → List String
  | [] => []
  | (key, value) :: members =>
    (quote key ++ ": " ++ pretty indent value) :: prettyMembers indent members

end

end FreeTime.Json
