import Redline.Bytes
/-!
# Decimal numerals
-/

namespace Redline.Text

def valueOf (digits : List Char) : Nat :=
  Nat.ofDigitChars 10 digits 0

/-- The number that a numeral writes, if it is a machine word.  A numeral is at
most one plus sign and at least one digit. -/
def readWord? (numeral : List Char) : Option Nat :=
  let digits := if numeral.head? = some '+' then numeral.tail else numeral
  if digits ≠ [] ∧ digits.all Char.isDigit ∧ valueOf digits ≤ maxOffset then
    some (valueOf digits)
  else none

end Redline.Text
