-- Reading text from its front. A scanner takes a list of characters and gives back what it
-- read together with the rest. Decimal numbers are read and written here too.

namespace FreeTime.Text

/-! ## Blanks -/

/-- The characters that count as blank: the spaces, tabs and line ends of Unicode. -/
def isBlank (c : Char) : Bool :=
  let n := c.toNat
  (9 ≤ n && n ≤ 13) || n = 32 || n = 0x85 || n = 0xA0 || n = 0x1680 ||
    (0x2000 ≤ n && n ≤ 0x200A) || n = 0x2028 || n = 0x2029 || n = 0x202F || n = 0x205F ||
    n = 0x3000

def skipBlanks (cs : List Char) : List Char := cs.dropWhile isBlank

/-- What follows a given character, if the text starts with it. -/
def after? (c : Char) : List Char → Option (List Char)
  | [] => none
  | x :: rest => if x = c then some rest else none

/-- What follows a given character, blanks before it skipped. -/
def afterBlanks? (c : Char) (cs : List Char) : Option (List Char) := after? c (skipBlanks cs)

/-! ## Decimal numbers -/

/-- The decimal digits; those of other scripts are not among them. -/
def isDigit (c : Char) : Bool := '0' ≤ c && c ≤ '9'

def digitValue (c : Char) : Nat := c.toNat - '0'.toNat

def digitChar (n : Nat) : Char := Char.ofNat ('0'.toNat + n)

/-- The number that a row of digits stands for. -/
def digitsValue (ds : List Char) : Nat := ds.foldl (fun n d => n * 10 + digitValue d) 0

/-- A number of at least one and at most `most` digits, with the row of digits read. -/
def digits? (most : Nat) (cs : List Char) : Option (List Char × List Char) :=
  let ds := (cs.take most).takeWhile isDigit
  if ds.isEmpty then none else some (ds, cs.drop ds.length)

/-- A number of at least one and at most `most` digits. -/
def number? (most : Nat) (cs : List Char) : Option (Nat × List Char) :=
  (digits? most cs).map fun (ds, rest) => (digitsValue ds, rest)

/-- A number of at most two digits, blanks before it skipped. -/
def twoDigits? (cs : List Char) : Option (Nat × List Char) := number? 2 (skipBlanks cs)

def decimal (n : Nat) : List Char :=
  if n < 10 then [digitChar n] else decimal (n / 10) ++ [digitChar (n % 10)]

/-- The digits of a number, with zeros in front up to a width. -/
def padded (width n : Nat) : List Char :=
  List.replicate (width - (decimal n).length) '0' ++ decimal n

end FreeTime.Text
