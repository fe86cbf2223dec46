-- Numbers that are held as floats of 64 bits. A number comes as a row of digits and a power of
-- ten; the digits are cut to what fits in 64 bits, digits and power are each brought to the
-- nearest float, and then they are multiplied. What matters is whether the product is a float.
import FreeTime.Text.Scan

namespace FreeTime.Json

open Text (digitValue)

/-! ## The digits that are kept -/

/-- The largest number of 64 bits. -/
def mostSignificand : Nat := 18446744073709551615

/-- Go on reading a number digit by digit as long as it fits in 64 bits; what was read, and the
digits that are left over. -/
def takeDigits (n : Nat) : List Char → Nat × List Char
  | [] => (n, [])
  | d :: ds =>
    if n * 10 + digitValue d ≤ mostSignificand then takeDigits (n * 10 + digitValue d) ds
    else (n, d :: ds)

/-- The digits before and after a point, cut to 64 bits, and the power of ten that belongs to
them. Digits left over before the point count as zeros; those after it are dropped. -/
def scaled (whole fraction : List Char) : Nat × Int :=
  let (n, beyond) := takeDigits 0 whole
  let (n, dropped) := takeDigits n fraction
  (n, (beyond.length : Int) - (fraction.length - dropped.length : Nat))

/-! ## Floats -/

/-- The float nearest to a whole number: fifty-three binary digits, and of two floats that are
equally near the one that ends in a zero. -/
def nearestFloat (n : Nat) : Nat :=
  let unit := Nat.pow 2 (n.log2 - 52)
  let below := n / unit
  let remainder := n % unit
  if 2 * remainder < unit ∨ (2 * remainder = unit ∧ below % 2 = 0) then below * unit
  else (below + 1) * unit

/-- The first number that is brought to no float: halfway from the largest float to the next
power of two. -/
def tooLarge : Nat := Nat.pow 2 1024 - Nat.pow 2 970

/-- The largest power of ten that is a float. -/
def mostExponent : Int := 308

/-- Digits times a power of ten make a float. A power below one never makes them too large. -/
def isFinite (digits : Nat) (exponent : Int) : Bool :=
  if digits = 0 ∨ exponent ≤ 0 then true
  else if exponent ≤ mostExponent then
    nearestFloat digits * nearestFloat (Nat.pow 10 exponent.toNat) < tooLarge
  else false

end FreeTime.Json
