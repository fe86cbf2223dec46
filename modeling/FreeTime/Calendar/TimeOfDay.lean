-- Times of day, down to the nanosecond. A minute may have a second numbered 60, the leap
-- second: it comes after every other instant of its minute and before the next minute.

namespace FreeTime

@[ext] structure TimeOfDay where
  hour : Nat
  minute : Nat
  second : Nat
  nano : Nat
  hour_lt : hour < 24
  minute_lt : minute < 60
  second_le : second ≤ 60
  nano_lt : nano < 1000000000
deriving DecidableEq

namespace TimeOfDay

/-- The time with the given parts, if they are in range. -/
def of? (hour minute second nano : Nat) : Option TimeOfDay :=
  if h : hour < 24 ∧ minute < 60 ∧ second ≤ 60 ∧ nano < 1000000000 then
    some ⟨hour, minute, second, nano, h.1, h.2.1, h.2.2.1, h.2.2.2⟩
  else none

def midnight : TimeOfDay := ⟨0, 0, 0, 0, by decide, by decide, by decide, by decide⟩

/-- The place of a time in the order of the day: minutes first, and sixty-one seconds of room
in each, so that a leap second stays within its minute. -/
def rank (t : TimeOfDay) : Nat :=
  ((t.hour * 60 + t.minute) * 61 + t.second) * 1000000000 + t.nano

instance : LE TimeOfDay := ⟨fun a b => a.rank ≤ b.rank⟩

instance : LT TimeOfDay := ⟨fun a b => a.rank < b.rank⟩

instance (a b : TimeOfDay) : Decidable (a ≤ b) := inferInstanceAs (Decidable (a.rank ≤ b.rank))

instance (a b : TimeOfDay) : Decidable (a < b) := inferInstanceAs (Decidable (a.rank < b.rank))

/-- Whole milliseconds since the start of the day; what is below a millisecond is dropped.
The leap second that closes a day runs on into the first second of the next. -/
def milliseconds (t : TimeOfDay) : Int :=
  ((t.hour * 60 + t.minute) * 60 + t.second) * 1000 + t.nano / 1000000

theorem of?_parts (t : TimeOfDay) : of? t.hour t.minute t.second t.nano = some t := by
  simp [of?, t.hour_lt, t.minute_lt, t.second_le, t.nano_lt]

theorem milliseconds_nonneg (t : TimeOfDay) : 0 ≤ t.milliseconds := by
  unfold milliseconds
  omega

/-- Times that share their rank are the same time. -/
theorem eq_of_rank_eq {a b : TimeOfDay} (h : a.rank = b.rank) : a = b := by
  unfold rank at h
  have := a.hour_lt
  have := a.minute_lt
  have := a.second_le
  have := a.nano_lt
  have := b.hour_lt
  have := b.minute_lt
  have := b.second_le
  have := b.nano_lt
  ext <;> omega

end TimeOfDay

end FreeTime
