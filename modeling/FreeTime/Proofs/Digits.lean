-- The laws of numbers in text. Digits are read off the front of a text as they were written there,
-- as long as the reading knows where to stop: after so many digits, or at something else.
import FreeTime.Text.Scan
import Mathlib.Algebra.Group.Nat.Defs

namespace FreeTime.Text

/-! ## Characters -/

theorem isDigit_iff {c : Char} : isDigit c = true ↔ 48 ≤ c.toNat ∧ c.toNat ≤ 57 := by
  simp [isDigit, Char.le_def, UInt32.le_iff_toNat_le]

theorem isBlank_of_isDigit {c : Char} (h : isDigit c = true) : isBlank c = false := by
  have := isDigit_iff.mp h
  simp only [isBlank, Bool.or_eq_false_iff, Bool.and_eq_false_iff, decide_eq_false_iff_not]
  omega

theorem isDigit_digitChar {n : Nat} (h : n < 10) : isDigit (digitChar n) = true := by
  revert n
  decide

theorem digitValue_digitChar {n : Nat} (h : n < 10) : digitValue (digitChar n) = n := by
  revert n
  decide

theorem skipBlanks_cons {c : Char} (h : isBlank c = false) (cs : List Char) :
    skipBlanks (c :: cs) = c :: cs := by
  simp [skipBlanks, h]

theorem afterBlanks?_cons {c : Char} (h : isBlank c = false) (cs : List Char) :
    afterBlanks? c (c :: cs) = some cs := by
  simp [afterBlanks?, skipBlanks_cons h, after?]

/-! ## Written numbers -/

theorem isDigit_of_mem_decimal {n : Nat} {c : Char} (h : c ∈ decimal n) : isDigit c = true := by
  fun_induction decimal n with
  | case1 n hlt =>
    rw [List.mem_singleton.mp h]
    exact isDigit_digitChar hlt
  | case2 n _ ih =>
    rcases List.mem_append.mp h with hc | hc
    · exact ih hc
    · rw [List.mem_singleton.mp hc]
      exact isDigit_digitChar (Nat.mod_lt n (by decide))

theorem decimal_ne_nil (n : Nat) : decimal n ≠ [] := by
  unfold decimal
  split <;> simp

theorem digitsValue_append_one (ds : List Char) (d : Char) :
    digitsValue (ds ++ [d]) = digitsValue ds * 10 + digitValue d := by
  simp [digitsValue]

/-- The digits of a number stand for it. -/
theorem digitsValue_decimal (n : Nat) : digitsValue (decimal n) = n := by
  fun_induction decimal n with
  | case1 n hlt => simp [digitsValue, digitValue_digitChar hlt]
  | case2 n _ ih =>
    rw [digitsValue_append_one, ih, digitValue_digitChar (Nat.mod_lt n (by decide))]
    omega

theorem length_decimal_le {width n : Nat} (hwidth : 0 < width) (h : n < 10 ^ width) :
    (decimal n).length ≤ width := by
  fun_induction decimal n generalizing width with
  | case1 n _ => exact hwidth
  | case2 n hge ih =>
    obtain ⟨width, rfl⟩ := Nat.exists_eq_succ_of_ne_zero (Nat.ne_of_gt hwidth)
    rw [Nat.pow_succ] at h
    -- A number of two digits or more does not fit into one.
    have hpos : 0 < width := by
      apply Nat.pos_of_ne_zero
      intro hzero
      rw [hzero] at h
      omega
    have := ih hpos (by omega)
    simp only [List.length_append, List.length_singleton]
    omega

/-- Zeros in front do not count. -/
theorem digitsValue_padded (width n : Nat) : digitsValue (padded width n) = n := by
  have hzeros : ∀ k, digitsValue (List.replicate k '0' ++ decimal n) = digitsValue (decimal n) := by
    intro k
    induction k with
    | zero => rfl
    | succ k ih => simpa [List.replicate_succ, digitsValue, digitValue] using ih
  rw [padded, hzeros, digitsValue_decimal]

theorem isDigit_of_mem_padded {width n : Nat} {c : Char} (h : c ∈ padded width n) :
    isDigit c = true := by
  rcases List.mem_append.mp h with hc | hc
  · rw [List.eq_of_mem_replicate hc]
    rfl
  · exact isDigit_of_mem_decimal hc

theorem length_padded {width n : Nat} (hwidth : 0 < width) (h : n < 10 ^ width) :
    (padded width n).length = width := by
  have := length_decimal_le hwidth h
  simp only [padded, List.length_append, List.length_replicate]
  omega

theorem padded_ne_nil (width n : Nat) : padded width n ≠ [] := by
  simp [padded, decimal_ne_nil]

theorem exists_padded_eq (width n : Nat) :
    ∃ c cs, padded width n = c :: cs ∧ isDigit c = true := by
  obtain ⟨c, cs, h⟩ := List.exists_cons_of_ne_nil (padded_ne_nil width n)
  exact ⟨c, cs, h, isDigit_of_mem_padded (by rw [h]; exact List.mem_cons_self)⟩

theorem skipBlanks_padded (width n : Nat) (rest : List Char) :
    skipBlanks (padded width n ++ rest) = padded width n ++ rest := by
  obtain ⟨c, cs, h, hc⟩ := exists_padded_eq width n
  rw [h, List.cons_append, skipBlanks_cons (isBlank_of_isDigit hc)]

/-! ## Where digits end -/

/-- A text that does not start with a digit. -/
def EndsDigits (rest : List Char) : Prop := ∀ c ∈ rest.head?, isDigit c = false

theorem endsDigits_nil : EndsDigits [] := by
  intro c hc
  cases hc

theorem endsDigits_cons {c : Char} (h : isDigit c = false) (cs : List Char) :
    EndsDigits (c :: cs) := by
  intro x hx
  cases hx
  exact h

theorem takeWhile_isDigit_take {rest : List Char} (h : EndsDigits rest) (most : Nat) :
    (rest.take most).takeWhile isDigit = [] := by
  cases rest with
  | nil => simp
  | cons c rest =>
    cases most with
    | zero => rfl
    | succ most => simp [h c rfl]

theorem dropWhile_isDigit {rest : List Char} (h : EndsDigits rest) :
    rest.dropWhile isDigit = rest := by
  cases rest with
  | nil => rfl
  | cons c rest => simp [h c rfl]

/-! ## Reading what was written -/

variable {most width n : Nat} {rest : List Char}

/-- A written number is read digit by digit, if all of it may be read and no digit comes after. -/
theorem digits?_padded (hmost : (padded width n).length ≤ most)
    (hend : (padded width n).length = most ∨ EndsDigits rest) :
    digits? most (padded width n ++ rest) = some (padded width n, rest) := by
  have hrest : (rest.take (most - (padded width n).length)).takeWhile isDigit = [] := by
    rcases hend with hlength | hstop
    · simp [hlength]
    · exact takeWhile_isDigit_take hstop _
  have hread : ((padded width n ++ rest).take most).takeWhile isDigit = padded width n := by
    rw [List.take_append, List.take_of_length_le hmost,
      List.takeWhile_append_of_pos fun c hc => isDigit_of_mem_padded hc, hrest, List.append_nil]
  unfold digits?
  simp [hread, padded_ne_nil]

theorem number?_padded (hmost : (padded width n).length ≤ most)
    (hend : (padded width n).length = most ∨ EndsDigits rest) :
    number? most (padded width n ++ rest) = some (n, rest) := by
  simp [number?, digits?_padded hmost hend, digitsValue_padded]

/-- A number that fills its width is read without a look at what comes after it. -/
theorem number?_filled (hwidth : 0 < width) (h : n < 10 ^ width) (rest : List Char) :
    number? width (padded width n ++ rest) = some (n, rest) := by
  have hlength := length_padded hwidth h
  exact number?_padded (Nat.le_of_eq hlength) (Or.inl hlength)

theorem twoDigits?_padded (h : n < 100) (rest : List Char) :
    twoDigits? (padded 2 n ++ rest) = some (n, rest) := by
  rw [twoDigits?, skipBlanks_padded, number?_filled (by decide) h]

end FreeTime.Text
