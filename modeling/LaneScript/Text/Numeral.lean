/-
  LaneScript.Text.Numeral — numbers as text: decimal without padding, lower-case
  hexadecimal padded with zeros to a width, and the 16-bit numbers that source
  text may hold.
-/

namespace LaneScript.Numeral

def decimal (n : Nat) : List Char := Nat.toDigits 10 n

/-- Lower-case hexadecimal, padded with zeros to at least `width` digits. -/
def hex (width n : Nat) : List Char :=
  let digits := Nat.toDigits 16 n
  List.replicate (width - digits.length) '0' ++ digits

def isDigit (c : Char) : Bool := '0' ≤ c && c ≤ '9'

def value (digits : List Char) : Nat := digits.foldl (fun n c => n * 10 + (c.toNat - '0'.toNat)) 0

/-- Digits that spell a number below 65536; leading zeros are allowed. -/
def word? (digits : List Char) : Option UInt16 :=
  if digits.isEmpty ∨ 65536 ≤ value digits then none else some (UInt16.ofNat (value digits))

end LaneScript.Numeral
