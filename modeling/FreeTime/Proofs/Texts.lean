-- The laws of dates, times and moments as text. Each is written in one way, and reading what was
-- written finds it again: years of any length and sign, leap seconds, and parts of a second down to
-- the nanosecond. A reader goes from the front, so a text may go on with whatever comes next.
import FreeTime.Calendar.Text
import FreeTime.Proofs.Digits

namespace FreeTime

open Text

/-! ## Dates -/

namespace Date

/-- A written year is read again, with its sign if it has one. -/
theorem scanYear?_yearText (year : Int) {rest : List Char} (h : EndsDigits rest) :
    scanYear? (yearText year ++ rest) = some (year, rest) := by
  unfold yearText
  by_cases hplain : 0 ≤ year ∧ year ≤ 9999
  · have hread : number? 4 (padded 4 year.toNat ++ rest) = some (year.toNat, rest) :=
      number?_filled (by decide) (by omega) rest
    obtain ⟨c, cs, hcs, hc⟩ := exists_padded_eq 4 year.toNat
    have hminus : c ≠ '-' := fun heq => absurd (heq ▸ hc) (by decide)
    have hplus : c ≠ '+' := fun heq => absurd (heq ▸ hc) (by decide)
    rw [if_pos hplain]
    rw [hcs, List.cons_append] at hread ⊢
    rw [scanYear?, skipBlanks_cons (isBlank_of_isDigit hc)]
    simp [hminus, hplus, hread]
    omega
  · have hread : number? (padded 4 year.natAbs ++ rest).length (padded 4 year.natAbs ++ rest) =
        some (year.natAbs, rest) := number?_padded (by simp) (Or.inr h)
    rw [if_neg hplain]
    by_cases hneg : year < 0
    · rw [if_pos hneg, List.cons_append, scanYear?, skipBlanks_cons (by decide)]
      simp only [hread, Option.map_some, Option.some.injEq, Prod.mk.injEq, and_true]
      omega
    · rw [if_neg hneg, List.cons_append, scanYear?, skipBlanks_cons (by decide)]
      simp only [hread, Option.map_some, Option.some.injEq, Prod.mk.injEq, and_true]
      omega

/-- The month and the day of a date are numbers of at most two digits. -/
theorem exists_civil_eq (d : Date) : ∃ month day : Nat, month < 100 ∧ day < 100 ∧
    d.civil = ⟨d.civil.year, month, day⟩ := by
  obtain ⟨hmonth, hmonth', hday, hday'⟩ := civilDay_valid d.day
  have hlength : monthLength (civilDay d.day).year (civilDay d.day).month ≤ 31 := by
    unfold monthLength
    split
    · split <;> omega
    · split <;> omega
  unfold civil
  refine ⟨(civilDay d.day).month.toNat, (civilDay d.day).day.toNat, by omega, by omega, ?_⟩
  rw [Int.toNat_of_nonneg (by omega), Int.toNat_of_nonneg (by omega)]

theorem scan?_chars (d : Date) (rest : List Char) : scan? (d.chars ++ rest) = some (d, rest) := by
  obtain ⟨month, day, hmonth, hday, hcivil⟩ := d.exists_civil_eq
  have hfound : ofCivil? ⟨d.civil.year, month, day⟩ = some d := hcivil ▸ ofCivil?_civil d
  have hyear := scanYear?_yearText d.civil.year (endsDigits_cons (c := '-') (by decide)
    (padded 2 month ++ '-' :: (padded 2 day ++ rest)))
  have hhyphen : ∀ cs, afterBlanks? '-' ('-' :: cs) = some cs := afterBlanks?_cons (by decide)
  rw [chars, hcivil]
  simp [scan?, hyear, hhyphen, twoDigits?_padded hmonth, twoDigits?_padded hday, hfound]

/-- A date is found again from its text. -/
theorem ofText?_text (d : Date) : ofText? d.text = some d := by
  have hscan := scan?_chars d []
  rw [List.append_nil] at hscan
  simp [ofText?, text, hscan, skipBlanks]

end Date

/-! ## Times of day -/

namespace TimeOfDay

/-- A text that goes on neither with a point nor with a digit. -/
def EndsFraction (rest : List Char) : Prop := EndsDigits rest ∧ rest.head? ≠ some '.'

theorem scanFraction?_padded {width part : Nat} (hwidth : 0 < width) (hmost : width ≤ 9)
    (hpart : part < 10 ^ width) {rest : List Char} (h : EndsDigits rest) :
    scanFraction? ('.' :: padded width part ++ rest) = some (part * 10 ^ (9 - width), rest) := by
  have hlength : (padded width part).length = width := length_padded hwidth hpart
  have hread : digits? 9 (padded width part ++ rest) = some (padded width part, rest) :=
    digits?_padded (by omega) (Or.inr h)
  simp [scanFraction?, hread, hlength, digitsValue_padded, dropWhile_isDigit h]

/-- A part of a second is read again, whether it takes no digits, three, six or nine. -/
theorem scanFraction?_fractionText {nano : Nat} (hnano : nano < 1000000000) {rest : List Char}
    (h : EndsFraction rest) : scanFraction? (fractionText nano ++ rest) = some (nano, rest) := by
  obtain ⟨hdigits, hpoint⟩ := h
  unfold fractionText
  split
  · rename_i hzero
    cases rest with
    | nil => simp [scanFraction?, hzero]
    | cons c rest =>
      have hc : c ≠ '.' := by simpa using hpoint
      simp [scanFraction?, hzero, hc]
  · split
    · rw [scanFraction?_padded (by decide) (by decide) (by omega) hdigits, Option.some.injEq,
        Prod.mk.injEq]
      exact ⟨by omega, rfl⟩
    · split
      · rw [scanFraction?_padded (by decide) (by decide) (by omega) hdigits, Option.some.injEq,
          Prod.mk.injEq]
        exact ⟨by omega, rfl⟩
      · rw [scanFraction?_padded (by decide) (by decide) (by omega) hdigits]
        simp

theorem scanMinutes?_padded (t : TimeOfDay) (rest : List Char) :
    scanMinutes? (padded 2 t.hour ++ ':' :: (padded 2 t.minute ++ rest)) =
      some (t.hour, t.minute, rest) := by
  have hhour : t.hour < 100 := Nat.lt_trans t.hour_lt (by decide)
  have hminute : t.minute < 100 := Nat.lt_trans t.minute_lt (by decide)
  have hcolon : ∀ cs, afterBlanks? ':' (':' :: cs) = some cs := afterBlanks?_cons (by decide)
  simp [scanMinutes?, hcolon, twoDigits?_padded hhour, twoDigits?_padded hminute]

theorem scanSeconds?_padded (t : TimeOfDay) {rest : List Char} (h : EndsFraction rest) :
    scanSeconds? (':' :: (padded 2 t.second ++ (fractionText t.nano ++ rest))) =
      some (t.second, t.nano, rest) := by
  have hsecond : t.second < 100 := Nat.lt_of_le_of_lt t.second_le (by decide)
  have hcolon : ∀ cs, afterBlanks? ':' (':' :: cs) = some cs := afterBlanks?_cons (by decide)
  simp [scanSeconds?, hcolon, twoDigits?_padded hsecond, scanFraction?_fractionText t.nano_lt h]

theorem scan?_chars (t : TimeOfDay) {rest : List Char} (h : EndsFraction rest) :
    scan? (t.chars ++ rest) = some (t, rest) := by
  simp [scan?, chars, scanMinutes?_padded, scanSeconds?_padded t h, of?_parts]

/-- A time is found again from its text. -/
theorem ofText?_text (t : TimeOfDay) : ofText? t.text = some t := by
  have hnothing : EndsFraction [] := ⟨endsDigits_nil, by decide⟩
  have hseconds := scanSeconds?_padded t hnothing
  rw [List.append_nil] at hseconds
  have hmore : skipBlanks (':' :: (padded 2 t.second ++ fractionText t.nano)) ≠ [] := by
    rw [skipBlanks_cons (by decide)]
    exact List.cons_ne_nil _ _
  have hend : skipBlanks [] = [] := rfl
  simp [ofText?, text, chars, scanMinutes?_padded, hmore, hseconds, hend, of?_parts]

end TimeOfDay

/-! ## Moments -/

namespace Moment

theorem ofZoned?_utc (m : Moment) : ofZoned? m.date m.time 0 = some m := by
  have := m.time.hour_lt
  have := m.time.minute_lt
  have hday : ((m.time.hour * 60 + m.time.minute : Nat) - (0 : Int)) / 1440 = 0 := by omega
  have hminute : (((m.time.hour * 60 + m.time.minute : Nat) - (0 : Int)) % 1440).toNat =
      m.time.hour * 60 + m.time.minute := by omega
  have hshift : m.date.shift? 0 = some m.date := by
    rw [Date.shift?, Int.add_zero, Date.ofDay?_day]
  unfold ofZoned?
  simp only [hday, hshift, hminute]
  rw [Option.some.injEq, Moment.ext_iff, TimeOfDay.ext_iff]
  dsimp only
  refine ⟨rfl, ?_, ?_, rfl, rfl⟩
  · omega
  · omega

/-- A moment is found again from its text. -/
theorem ofText?_text (m : Moment) : ofText? m.text = some m := by
  have hdate := Date.scan?_chars m.date ('T' :: (m.time.chars ++ ['Z']))
  have hmark : afterMark? ('T' :: (m.time.chars ++ ['Z'])) = some (m.time.chars ++ ['Z']) := rfl
  have hutc : TimeOfDay.EndsFraction ['Z'] := ⟨endsDigits_cons (by decide) [], by decide⟩
  have htime := TimeOfDay.scan?_chars m.time hutc
  have hzone : scanZone? (skipBlanks ['Z']) = some (0, []) := by decide
  have hend : skipBlanks [] = [] := rfl
  simp [ofText?, text, chars, hdate, hmark, htime, hzone, hend, ofZoned?_utc]

end Moment

end FreeTime
