-- The tokens of a JSON text. The text is read character by character; what has been begun and
-- not finished is the state.
import FreeTime.Json.Basic
import FreeTime.Text.Scan

namespace FreeTime.Json

open Text (isDigit digitsValue)

/-- The parts of a JSON text. An atom is a number, a truth value or null; a string is none when
it is garbled. -/
inductive Token where
  | openObject
  | closeObject
  | openArray
  | closeArray
  | comma
  | colon
  | text (value : Option String)
  | atom (value : Json)

/-! ## Numbers and names -/

/-- The digits before the point: at least one, and no zero in front of others. -/
def wholePart? (cs : List Char) : Option (List Char × List Char) :=
  match cs.takeWhile isDigit, cs.dropWhile isDigit with
  | [], _ => none
  | '0' :: _ :: _, _ => none
  | ds, rest => some (ds, rest)

/-- The digits after a point, if there is one; none only where they are missing. -/
def fractionPart? : List Char → Option (List Char × List Char)
  | '.' :: cs =>
    match cs.takeWhile isDigit with
    | [] => none
    | ds => some (ds, cs.dropWhile isDigit)
  | cs => some ([], cs)

/-- A row of digits to the end of the text. -/
def allDigits? (cs : List Char) : Option Nat :=
  if cs = [] ∨ !cs.all isDigit then none else some (digitsValue cs)

/-- The exponent that ends a number. -/
def exponent? : List Char → Option Int
  | '+' :: cs => (allDigits? cs).map fun n => (n : Int)
  | '-' :: cs => (allDigits? cs).map fun n => -(n : Int)
  | cs => (allDigits? cs).map fun n => (n : Int)

/-- A number without its sign. It is whole if it has neither point nor exponent and fits in 64
bits. A negative zero is a real number: whole numbers have one zero. -/
def unsigned? (negative : Bool) (cs : List Char) : Option Json := do
  let (whole, cs) ← wholePart? cs
  let (fraction, cs) ← fractionPart? cs
  let (digits, power) := scaled whole fraction
  match cs with
  | [] =>
    if fraction = [] ∧ digitsValue whole ≤ mostSignificand ∧ !(negative ∧ digits = 0) then
      return .int (if negative then -(digits : Int) else digits)
    else return .real negative digits power
  | e :: cs =>
    if e = 'e' ∨ e = 'E' then
      let exponent ← exponent? cs
      return .real negative digits (power + exponent)
    else none

/-- The value of a word that stands outside of strings. -/
def atom? (word : List Char) : Option Json :=
  match word with
  | ['n', 'u', 'l', 'l'] => some .null
  | ['t', 'r', 'u', 'e'] => some (.bool true)
  | ['f', 'a', 'l', 's', 'e'] => some (.bool false)
  | '-' :: cs => unsigned? true cs
  | cs => unsigned? false cs

/-! ## Strings -/

/-- A string that is being read: its characters, last first, the first half of a pair of
surrogates that waits for the second, and whether a half stood on its own before. -/
structure Quoted where
  chars : List Char
  half : Option Nat
  garbled : Bool

namespace Quoted

def empty : Quoted := ⟨[], none, false⟩

/-- The string with one more character. A half that waits is then on its own. -/
def push (q : Quoted) (c : Char) : Quoted := ⟨c :: q.chars, none, q.garbled || q.half.isSome⟩

/-- The string with a first half, which waits for the second. -/
def pushHigh (q : Quoted) (n : Nat) : Quoted :=
  ⟨q.chars, some n, q.garbled || q.half.isSome⟩

/-- The string with a second half. It makes one character with the half that waits. -/
def pushLow (q : Quoted) (n : Nat) : Quoted :=
  match q.half with
  | some high =>
    ⟨Char.ofNat (0x10000 + (high - 0xD800) * 0x400 + (n - 0xDC00)) :: q.chars, none, q.garbled⟩
  | none => ⟨q.chars, none, true⟩

/-- The string with a character, or half of one, given by its number. -/
def pushUnit (q : Quoted) (n : Nat) : Quoted :=
  if 0xD800 ≤ n ∧ n ≤ 0xDBFF then q.pushHigh n
  else if 0xDC00 ≤ n ∧ n ≤ 0xDFFF then q.pushLow n
  else q.push (Char.ofNat n)

/-- The character that a letter after a backslash stands for. -/
def escaped? : Char → Option Char
  | '"' => some '"'
  | '\\' => some '\\'
  | '/' => some '/'
  | 'b' => some '\x08'
  | 'f' => some '\x0c'
  | 'n' => some '\n'
  | 'r' => some '\r'
  | 't' => some '\t'
  | _ => none

def hexValue? (c : Char) : Option Nat :=
  if '0' ≤ c ∧ c ≤ '9' then some (c.toNat - '0'.toNat)
  else if 'a' ≤ c ∧ c ≤ 'f' then some (c.toNat - 'a'.toNat + 10)
  else if 'A' ≤ c ∧ c ≤ 'F' then some (c.toNat - 'A'.toNat + 10)
  else none

/-- The finished string, unless it is garbled. -/
def finish? (q : Quoted) : Option String :=
  if q.garbled ∨ q.half.isSome then none else some (String.ofList q.chars.reverse)

end Quoted

/-! ## Reading character by character -/

/-- What has been begun: nothing or a word outside of strings, or a string, in which a
backslash or a numbered character may be open. -/
inductive Open where
  | word (chars : List Char)
  | quoted (q : Quoted)
  | escape (q : Quoted)
  | numbered (q : Quoted) (value count : Nat)

/-- The tokens so far, last first, with the word that ends here. -/
def endWord? (tokens : List Token) (chars : List Char) : Option (List Token) :=
  if chars.isEmpty then some tokens
  else (atom? chars.reverse).map fun value => .atom value :: tokens

def mark? : Char → Option Token
  | '\x7b' => some .openObject
  | '\x7d' => some .closeObject
  | '[' => some .openArray
  | ']' => some .closeArray
  | ',' => some .comma
  | ':' => some .colon
  | _ => none

/-- The characters that may stand between tokens. -/
def isSpace (c : Char) : Bool := c = ' ' || c = '\n' || c = '\r' || c = '\t'

/-- Read one more character. -/
def readChar? : List Token × Open → Char → Option (List Token × Open)
  | (tokens, .word chars), c =>
    if isSpace c then (endWord? tokens chars).map fun tokens => (tokens, .word [])
    else if c = '"' then (endWord? tokens chars).map fun tokens => (tokens, .quoted .empty)
    else
      match mark? c with
      | some token => (endWord? tokens chars).map fun tokens => (token :: tokens, .word [])
      | none => some (tokens, .word (c :: chars))
  | (tokens, .quoted q), c =>
    if c = '"' then some (.text q.finish? :: tokens, .word [])
    else if c = '\\' then some (tokens, .escape q)
    else if c.toNat < 0x20 then none
    else some (tokens, .quoted (q.push c))
  | (tokens, .escape q), c =>
    if c = 'u' then some (tokens, .numbered q 0 0)
    else
      match Quoted.escaped? c with
      | some c => some (tokens, .quoted (q.push c))
      | none => none
  | (tokens, .numbered q value count), c =>
    match Quoted.hexValue? c with
    | none => none
    | some digit =>
      let value := value * 16 + digit
      if count = 3 then some (tokens, .quoted (q.pushUnit value))
      else some (tokens, .numbered q value (count + 1))

def tokens? (text : String) : Option (List Token) := do
  let (tokens, opened) ← text.toList.foldlM readChar? ([], .word [])
  match opened with
  | .word chars => (endWord? tokens chars).map List.reverse
  | _ => none

end FreeTime.Json
