import Aperture.ByteSize
import Mathlib.Algebra.Ring.Nat

namespace Aperture

namespace ByteSize

/-- Decimals behind a point, and no point without decimals. -/
def fraction : List Char → List Char
  | [] => []
  | d :: ds => '.' :: d :: ds

/-- The text is a decimal number, with at most two decimals and no zero as the last of them, and the
name of a unit. Both together stand for the size. -/
structure Spelling (text : String) (b : ByteSize) (whole decimals : List Char) : Prop where
  characters : text.toList = whole ++ fraction decimals ++ (unitNames.getD b.unit "").toList
  nonempty : whole ≠ []
  digits : ∀ c ∈ whole ++ decimals, c.isDigit
  short : decimals.length ≤ 2
  trimmed : decimals.getLast? ≠ some '0'
  named : b.unit < unitNames.length
  whole_eq : b.whole = Nat.ofDigitChars 10 whole 0
  hundredths_eq : b.hundredths * 10 ^ decimals.length = 100 * Nat.ofDigitChars 10 decimals 0

def Spells (text : String) (b : ByteSize) : Prop :=
  ∃ whole decimals, Spelling text b whole decimals

end ByteSize

end Aperture
