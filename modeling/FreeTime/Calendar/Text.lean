-- Dates, times and moments as text. Each is written in one way only and read in a few more:
-- blanks may stand before each number and each separator, and numbers may lack leading zeros.
import FreeTime.Calendar.Moment
import FreeTime.Text.Scan

namespace FreeTime

open Text

/-! ## Dates -/

namespace Date

/-- A year: four digits for 0 to 9999, else a sign and at least four digits. -/
def yearText (year : Int) : List Char :=
  if 0 ≤ year ∧ year ≤ 9999 then padded 4 year.toNat
  else (if year < 0 then '-' else '+') :: padded 4 year.natAbs

/-- A date as year, month and day of the month, joined by hyphens. -/
def chars (d : Date) : List Char :=
  yearText d.civil.year ++ '-' :: padded 2 d.civil.month.toNat
    ++ '-' :: padded 2 d.civil.day.toNat

def text (d : Date) : String := String.ofList d.chars

/-- A year: up to four digits, or a sign and any number of digits. -/
def scanYear? (cs : List Char) : Option (Int × List Char) :=
  match skipBlanks cs with
  | '-' :: rest => (number? rest.length rest).map fun (n, rest) => (-(n : Int), rest)
  | '+' :: rest => (number? rest.length rest).map fun (n, rest) => ((n : Int), rest)
  | rest => (number? 4 rest).map fun (n, rest) => ((n : Int), rest)

/-- A date at the front of a text. -/
def scan? (cs : List Char) : Option (Date × List Char) := do
  let (year, cs) ← scanYear? cs
  let cs ← afterBlanks? '-' cs
  let (month, cs) ← twoDigits? cs
  let cs ← afterBlanks? '-' cs
  let (day, cs) ← twoDigits? cs
  let date ← ofCivil? ⟨year, month, day⟩
  return (date, cs)

/-- The date that a text stands for. Blanks may close the text. -/
def ofText? (s : String) : Option Date :=
  match scan? s.toList with
  | some (date, rest) => if skipBlanks rest = [] then some date else none
  | none => none

end Date

/-! ## Times of day -/

namespace TimeOfDay

/-- The part of a second: nothing when it is zero, else three, six or nine digits, as few as
leave nothing out. -/
def fractionText (nano : Nat) : List Char :=
  if nano = 0 then []
  else if nano % 1000000 = 0 then '.' :: padded 3 (nano / 1000000)
  else if nano % 1000 = 0 then '.' :: padded 6 (nano / 1000)
  else '.' :: padded 9 nano

/-- A time as hours, minutes and seconds, joined by colons, and the part of a second. -/
def chars (t : TimeOfDay) : List Char :=
  padded 2 t.hour ++ ':' :: padded 2 t.minute ++ ':' :: padded 2 t.second ++ fractionText t.nano

def text (t : TimeOfDay) : String := String.ofList t.chars

/-- The part of a second in nanoseconds, after its point. What follows the ninth digit is
dropped. Without a point there is nothing to read. -/
def scanFraction? : List Char → Option (Nat × List Char)
  | '.' :: rest =>
    (digits? 9 rest).map fun (ds, rest) =>
      (digitsValue ds * Nat.pow 10 (9 - ds.length), rest.dropWhile isDigit)
  | rest => some (0, rest)

/-- Hours and minutes at the front of a text. -/
def scanMinutes? (cs : List Char) : Option (Nat × Nat × List Char) := do
  let (hour, cs) ← twoDigits? cs
  let cs ← afterBlanks? ':' cs
  let (minute, cs) ← twoDigits? cs
  return (hour, minute, cs)

/-- Seconds and their part, after the colon that sets them off. -/
def scanSeconds? (cs : List Char) : Option (Nat × Nat × List Char) := do
  let cs ← afterBlanks? ':' cs
  let (second, cs) ← twoDigits? cs
  let (nano, cs) ← scanFraction? cs
  return (second, nano, cs)

/-- A time with its seconds at the front of a text. -/
def scan? (cs : List Char) : Option (TimeOfDay × List Char) := do
  let (hour, minute, cs) ← scanMinutes? cs
  let (second, nano, cs) ← scanSeconds? cs
  let time ← of? hour minute second nano
  return (time, cs)

/-- The time that a text stands for. The seconds may be left out; blanks may close the text. -/
def ofText? (s : String) : Option TimeOfDay := do
  let (hour, minute, rest) ← scanMinutes? s.toList
  if skipBlanks rest = [] then of? hour minute 0 0
  else
    let (second, nano, rest) ← scanSeconds? rest
    if skipBlanks rest = [] then of? hour minute second nano else none

end TimeOfDay

/-! ## Moments -/

namespace Moment

/-- A moment as its date, a `T`, its time and a `Z` for UTC. -/
def chars (m : Moment) : List Char := m.date.chars ++ 'T' :: m.time.chars ++ ['Z']

def text (m : Moment) : String := String.ofList m.chars

/-- What follows the mark between date and time: a `T` or one space; no other blank will do. -/
def afterMark? : List Char → Option (List Char)
  | c :: rest => if c = 'T' ∨ c = 't' ∨ c = ' ' then some rest else none
  | [] => none

def scanPair? (cs : List Char) : Option (Nat × List Char) :=
  match digits? 2 cs with
  | some (ds, rest) => if ds.length = 2 then some (digitsValue ds, rest) else none
  | none => none

/-- Hours and minutes of an offset, at most 23 and 59, in minutes. Colons and blanks may
stand between the two. -/
def scanOffset? (cs : List Char) : Option (Int × List Char) := do
  let (hours, cs) ← scanPair? cs
  let (minutes, cs) ← scanPair? (cs.dropWhile fun c => c = ':' || isBlank c)
  if hours ≤ 23 ∧ minutes ≤ 59 then return ((hours * 60 + minutes : Nat), cs) else none

/-- How far a clock is ahead of UTC, in minutes: `Z` or `UTC` for not at all, else a sign
with hours and minutes. -/
def scanZone? : List Char → Option (Int × List Char)
  | 'Z' :: rest => some (0, rest)
  | 'z' :: rest => some (0, rest)
  | '+' :: rest => scanOffset? rest
  | '-' :: rest => (scanOffset? rest).map fun (n, rest) => (-n, rest)
  | '−' :: rest => (scanOffset? rest).map fun (n, rest) => (-n, rest)
  | u :: t :: c :: rest =>
    if u.toUpper = 'U' ∧ t.toUpper = 'T' ∧ c.toUpper = 'C' then some (0, rest) else none
  | _ => none

/-- The moment that a text stands for: a date, a mark, a time with seconds and a zone. -/
def ofText? (s : String) : Option Moment := do
  let (date, rest) ← Date.scan? s.toList
  let rest ← afterMark? rest
  let (time, rest) ← TimeOfDay.scan? rest
  let (minutes, rest) ← scanZone? (skipBlanks rest)
  if skipBlanks rest = [] then ofZoned? date time minutes else none

end Moment

end FreeTime
