-- Dates of the Gregorian calendar, carried back before its start. A date is held as its
-- number of days from 1970-01-01, so order, distance and stepping are those of the
-- integers; year, month and day of the month are read off that number.

namespace FreeTime

/-! ## Years, months and day numbers -/

/-- Whether a year has a 29th of February. Year 0 exists and has one. -/
def isLeapYear (year : Int) : Bool :=
  year % 4 = 0 && (year % 100 != 0 || year % 400 = 0)

def monthLength (year month : Int) : Int :=
  if month = 2 then (if isLeapYear year then 29 else 28)
  else if month = 4 ∨ month = 6 ∨ month = 9 ∨ month = 11 then 30
  else 31

/-- The number of days from 1970-01-01 to a day given by year, month and day of the month.
Years are counted from March here, so the leap day is the last day of its year. -/
def dayNumber (year month day : Int) : Int :=
  let y := if month ≤ 2 then year - 1 else year
  let m := if month ≤ 2 then month + 9 else month - 3
  365 * y + y / 4 - y / 100 + y / 400 + (153 * m + 2) / 5 + (day - 1) - 719468

/-- A day as it is written: year, month and day of the month. -/
structure CivilDay where
  year : Int
  month : Int
  day : Int
deriving DecidableEq

/-- The written form of a day number: the inverse of `dayNumber`. Whole spans of 400, 100,
4 and 1 years are taken off in turn; what is left is a day of a year that starts in March. -/
def civilDay (number : Int) : CivilDay :=
  let shifted := number + 719468
  let era := shifted / 146097
  let inEra := shifted % 146097
  let century := min 3 (inEra / 36524)
  let inCentury := inEra - 36524 * century
  let fourYears := inCentury / 1461
  let inFourYears := inCentury % 1461
  let single := min 3 (inFourYears / 365)
  let inYear := inFourYears - 365 * single
  let y := 400 * era + 100 * century + 4 * fourYears + single
  let m := (5 * inYear + 2) / 153
  let day := inYear - (153 * m + 2) / 5 + 1
  if m < 10 then ⟨y, m + 3, day⟩ else ⟨y + 1, m - 9, day⟩

/-- Counting the days of a written day and writing it again changes nothing. -/
theorem dayNumber_civilDay (number : Int) :
    dayNumber (civilDay number).year (civilDay number).month (civilDay number).day = number := by
  unfold civilDay
  dsimp only
  generalize hs : number + 719468 = s
  generalize he : s / 146097 = era
  generalize hi : s % 146097 = inEra
  generalize hc : min 3 (inEra / 36524) = century
  generalize hq : (inEra - 36524 * century) / 1461 = four
  generalize hr : (inEra - 36524 * century) % 1461 = inFour
  generalize hy : min 3 (inFour / 365) = single
  generalize hm : (5 * (inFour - 365 * single) + 2) / 153 = m
  have hfour : 0 ≤ four ∧ four ≤ 24 := by omega
  have hsingle : 0 ≤ single ∧ single ≤ 3 := by omega
  have hcentury : 0 ≤ century ∧ century ≤ 3 := by omega
  have h4 : (400 * era + 100 * century + 4 * four + single) / 4 = 100 * era + 25 * century + four := by
    omega
  have h100 : (400 * era + 100 * century + 4 * four + single) / 100 = 4 * era + century := by
    omega
  have h400 : (400 * era + 100 * century + 4 * four + single) / 400 = era := by
    omega
  have hmonth : 0 ≤ m ∧ m ≤ 11 := by omega
  split
  · rename_i hlt
    simp only [dayNumber]
    rw [if_neg (by omega), if_neg (by omega), h4, h100, h400]
    omega
  · rename_i hge
    simp only [dayNumber]
    rw [if_pos (by omega), if_pos (by omega)]
    rw [show 400 * era + 100 * century + 4 * four + single + 1 - 1
      = 400 * era + 100 * century + 4 * four + single by omega, h4, h100, h400]
    omega

/-- The month of a written day is a month, and the day is one of that month's days. -/
theorem civilDay_valid (number : Int) :
    let c := civilDay number
    1 ≤ c.month ∧ c.month ≤ 12 ∧ 1 ≤ c.day ∧ c.day ≤ monthLength c.year c.month := by
  unfold civilDay
  dsimp only
  generalize hs : number + 719468 = s
  generalize he : s / 146097 = era
  generalize hi : s % 146097 = inEra
  generalize hc : min 3 (inEra / 36524) = century
  generalize hq : (inEra - 36524 * century) / 1461 = four
  generalize hr : (inEra - 36524 * century) % 1461 = inFour
  generalize hy : min 3 (inFour / 365) = single
  generalize hd : inFour - 365 * single = inYear
  generalize hm : (5 * inYear + 2) / 153 = m
  have hyear : 0 ≤ inYear ∧ inYear ≤ 365 := by omega
  have hmonth : 0 ≤ m ∧ m ≤ 11 := by omega
  split
  · dsimp only
    refine ⟨by omega, by omega, by omega, ?_⟩
    simp only [monthLength]
    rw [if_neg (by omega)]
    split <;> omega
  · dsimp only
    refine ⟨by omega, by omega, by omega, ?_⟩
    simp only [monthLength]
    split
    · split
      · omega
      · rename_i hleap
        simp only [isLeapYear, Bool.and_eq_true, Bool.or_eq_true, decide_eq_true_eq,
          bne_iff_ne, ne_eq, not_and, not_or, Decidable.not_not] at hleap
        have hfour : 0 ≤ four ∧ four ≤ 24 := by omega
        have hsingle : 0 ≤ single ∧ single ≤ 3 := by omega
        omega
    · split <;> omega

/-! ## Dates -/

/-- The day number of -262143-01-01, the first day of the calendar. -/
def firstDay : Int := -96465292

/-- The day number of +262142-12-31, the last day of the calendar. -/
def lastDay : Int := 95026236

/-- A day of the calendar. -/
@[ext] structure Date where
  day : Int
  firstDay_le : firstDay ≤ day
  le_lastDay : day ≤ lastDay
deriving DecidableEq

namespace Date

/-- The date with a day number, if the calendar reaches it. -/
def ofDay? (day : Int) : Option Date :=
  if h : firstDay ≤ day ∧ day ≤ lastDay then some ⟨day, h.1, h.2⟩ else none

def first : Date := ⟨firstDay, by decide, by decide⟩

def last : Date := ⟨lastDay, by decide, by decide⟩

instance : LE Date := ⟨fun a b => a.day ≤ b.day⟩

instance : LT Date := ⟨fun a b => a.day < b.day⟩

instance (a b : Date) : Decidable (a ≤ b) := inferInstanceAs (Decidable (a.day ≤ b.day))

instance (a b : Date) : Decidable (a < b) := inferInstanceAs (Decidable (a.day < b.day))

def latest (a b : Date) : Date := if a ≤ b then b else a

def earliest (a b : Date) : Date := if a ≤ b then a else b

/-- How many days later `b` is than `a`. -/
def daysUntil (a b : Date) : Int := b.day - a.day

/-- The date some days later, held at the last date of the calendar. -/
def forward (d : Date) (days : Nat) : Date :=
  if h : d.day + days ≤ lastDay then
    ⟨d.day + days, by have := d.firstDay_le; omega, h⟩
  else last

/-- The date some days later or earlier, if the calendar reaches it. -/
def shift? (d : Date) (days : Int) : Option Date := ofDay? (d.day + days)

/-- The day of the week, from 0 for Sunday to 6 for Saturday. 1970-01-01 was a Thursday. -/
def weekday (d : Date) : Nat := ((d.day + 4) % 7).toNat

/-- The bit of a date's weekday in a set of weekdays: Sunday is the lowest. -/
def weekdayBit (d : Date) : Nat := 1 <<< d.weekday

/-- 1970-01-04, the first Sunday after the day from which days are counted. -/
def sunday : Date := ⟨3, by decide, by decide⟩

def civil (d : Date) : CivilDay := civilDay d.day

def dayOfMonth (d : Date) : Nat := d.civil.day.toNat

/-- The date written as year, month and day of the month, if there is such a day. -/
def ofCivil? (c : CivilDay) : Option Date :=
  if 1 ≤ c.month ∧ c.month ≤ 12 ∧ 1 ≤ c.day ∧ c.day ≤ monthLength c.year c.month then
    ofDay? (dayNumber c.year c.month c.day)
  else none

/-- `count` dates in a row from `start` on. -/
def run (start : Date) (count : Nat) : List Date :=
  (List.range count).map start.forward

theorem ofDay?_day (d : Date) : ofDay? d.day = some d := by
  simp [ofDay?, d.firstDay_le, d.le_lastDay]

/-- A date is found again from its year, month and day of the month. -/
theorem ofCivil?_civil (d : Date) : ofCivil? d.civil = some d := by
  have hvalid := civilDay_valid d.day
  unfold ofCivil? civil
  rw [if_pos hvalid, dayNumber_civilDay, ofDay?_day]

theorem forward_day {d : Date} {days : Nat} (h : d.day + days ≤ lastDay) :
    (d.forward days).day = d.day + days := by
  simp [forward, h]

end Date

end FreeTime
