/-!
Numerals of a program: digits, and after a point perhaps more of them. The value of a numeral is
the binary64 number nearest to it, a tie going to the even neighbour; a numeral too large for
every finite one is infinity.
-/

namespace Bindery.Numeral

/-- The natural number that a string of decimal digits writes. -/
def natOfDigits (digits : List Char) : Nat :=
  digits.foldl (fun n c => 10 * n + (c.toNat - '0'.toNat)) 0

/-- The binary64 pattern of the numeral with these digits before and after its point. -/
def bits (whole fraction : List Char) : UInt64 :=
  (Float.ofScientific (natOfDigits (whole ++ fraction)) true fraction.length).toBits

end Bindery.Numeral
