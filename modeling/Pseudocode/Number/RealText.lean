import Pseudocode.Number.Binary64
import Pseudocode.Number.Decimal
/-!
# Real numbers as text

Two ways to write a real number and one to read it. Values are shown with six significant digits,
syntax trees show six places after the point, and a literal is digits with a point between them.
Each rounding is of the exact value, a half to the even neighbour.
-/
namespace Pseudocode.Binary64

/-- The decimal exponent of the first digit of `num / den`: the largest `e` with `10 ^ e ≤ num /
den`. -/
def decimalExponent (num den : Nat) : Int :=
  if den ≤ num then Decimal.log10 (num / den) else -(Decimal.log10 ((den - 1) / num) + 1 : Nat)

/-- The exponent and the six digits of `num / den`, rounded to six significant digits: the value is
`digits * 10 ^ (exponent - 5)`. -/
def sixDigits (num den : Nat) : Int × Nat :=
  let e := decimalExponent num den
  let d := roundDiv (num * Nat.pow 10 (5 - e).toNat) (den * Nat.pow 10 (e - 5).toNat)
  if d = 1000000 then (e + 1, 100000) else (e, d)

/-- A positive quotient in scientific form: the digits of the mantissa, five of them behind its
point, and the exponent. -/
def scientific (num den : Nat) : List Char × Int :=
  let (exponent, d) := sixDigits num den
  (Decimal.fixed 5 d, exponent)

/-- A quotient with so many places behind the point. -/
def fixedPlaces (places num den : Nat) : List Char :=
  Decimal.fixed places (roundDiv (num * Nat.pow 10 places) den)

/-- A positive quotient with six significant digits, without zeros at the end of the fraction
(`format_real`). The scientific form tells the exponent. If that is below -4 or above 5 it is
written, with a sign and at least two digits; otherwise the quotient is rounded anew, to the places
that make six digits. -/
def shortText (num den : Nat) : List Char :=
  let (mantissa, exponent) := scientific num den
  if exponent < -4 ∨ 6 ≤ exponent then
    Decimal.trimFraction mantissa ++ 'e' :: (if exponent < 0 then '-' else '+') ::
      Decimal.pad 2 (Decimal.digits exponent.natAbs)
  else Decimal.trimFraction (fixedPlaces (5 - exponent).toNat num den)

/-- A minus in front of what is negative. -/
def signed (negative : Bool) (text : List Char) : List Char :=
  if negative then '-' :: text else text

/-- A real number as a value is shown, with six significant digits (`format_real`). -/
def shown (x : Binary64) : String :=
  if x.isNaN then "nan"
  else String.ofList <| signed x.negative <|
    if x.isInfinite then "inf".toList
    else if x.isZero then ['0']
    else shortText x.ratio.1 x.ratio.2

/-- A real number with six places after the point. -/
def sixPlaces (x : Binary64) : String :=
  if x.isNaN then "NaN"
  else String.ofList <| signed x.negative <|
    if x.isInfinite then "inf".toList
    else Decimal.fixed 6 (roundDiv (x.ratio.1 * 1000000) x.ratio.2)

/-- The number nearest to the decimal fraction with these digits before and after the point. -/
def ofDecimal (whole fraction : List Char) : Binary64 :=
  ofRatio false (Decimal.value (whole ++ fraction)) (Nat.pow 10 fraction.length)

end Pseudocode.Binary64
