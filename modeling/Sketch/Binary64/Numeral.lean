import Sketch.Text
import Sketch.Binary64.Rounding

/-!
# Decimal numerals

Numbers are written with a fixed count of significant digits, rounded from the exact value with ties
to the even digit and without the zeros that end a fraction. Sizes within the style's range are
written positionally and the others with an exponent.
-/

namespace Sketch

/-- How numbers are written. -/
structure NumeralStyle where
  /-- The count of significant digits; a size with more digits before its point gets an exponent. -/
  digits : Nat
  /-- The least exponent of ten that is still written positionally. -/
  leastExponent : Int

/-- Messages and documents have six significant digits and write a size positionally from `10^-4` on
to below `10^6`. -/
def NumeralStyle.standard : NumeralStyle := ⟨6, -4⟩

/-- A decimal number `significand * 10^(exponent - (digits - 1))` of a fixed count of digits. -/
structure RoundedDecimal where
  /-- The significant digits, read as one integer. -/
  significand : Nat
  /-- The exponent of ten of the first significant digit. -/
  exponent : Int
deriving DecidableEq

namespace RoundedDecimal

/-- The exponent of ten of the first digit of `numerator / denominator`. The quotient is scaled up
by `10^324`, which makes every positive binary64 size at least one, and its digits are counted. -/
def leadingExponent (numerator denominator : Nat) : Int :=
  (Nat.toDigits 10 (numerator * Nat.pow 10 324 / denominator)).length - 325

/-- The quotient of two positive numbers, rounded to `digits` digits with ties to even by
`roundHalfEven`. A quotient that rounds up to the next power of ten takes its exponent. -/
def ofQuotient (digits numerator denominator : Nat) : RoundedDecimal :=
  let exponent := leadingExponent numerator denominator
  let place := exponent - (digits - 1 : Nat)
  let significand :=
    roundHalfEven (numerator * Nat.pow 10 (-place).toNat) (denominator * Nat.pow 10 place.toNat)
  if significand = Nat.pow 10 digits then ⟨Nat.pow 10 (digits - 1), exponent + 1⟩
  else ⟨significand, exponent⟩

/-- The part of a numeral from its point on: the `digits` after the point without the zeros that end
them, and no point either if none are left. -/
def fraction (digits : Text) : Text :=
  let kept := (digits.reverse.dropWhile (· == Byte.digitZero)).reverse
  if kept.isEmpty then [] else Byte.dot :: kept

/-- The part of a numeral that gives its `exponent`: an `e`, a sign, and at least two digits. -/
def exponentMark (exponent : Int) : Text :=
  let digits := Text.ofNat exponent.natAbs
  ascii "e" ++ ascii (if exponent < 0 then "-" else "+") ++
    (if digits.length < 2 then [Byte.digitZero] else []) ++ digits

/-- The decimal number `d` as a text in the given `style`: with an `exponentMark` if its exponent is
below `leastExponent` or not below `digits`, and positionally otherwise. -/
def text (style : NumeralStyle) (d : RoundedDecimal) : Text :=
  let digits := Text.ofNat d.significand
  if d.exponent < style.leastExponent ∨ style.digits ≤ d.exponent then
    digits.take 1 ++ fraction (digits.drop 1) ++ exponentMark d.exponent
  else if d.exponent < 0 then
    ascii "0" ++ fraction (List.replicate (d.exponent.natAbs - 1) Byte.digitZero ++ digits)
  else
    digits.take (d.exponent.toNat + 1) ++ fraction (digits.drop (d.exponent.toNat + 1))

end RoundedDecimal

namespace Magnitude

/-- The size `m` as a text in the given `style`, from its exact value in `units`. An infinite size
is `inf`. -/
def text (style : NumeralStyle) (m : Magnitude) : Text :=
  if !m.isFinite then ascii "inf"
  else if m.units = 0 then ascii "0"
  else (RoundedDecimal.ofQuotient style.digits m.units Binary64.unitsPerOne).text style

end Magnitude

namespace Binary64

/-- The number as a text in the standard style, with a minus sign also before a negative zero and
before what is not a number and negative. -/
def text : Binary64 → Text
  | notNumber negative => (if negative then [Byte.minus] else []) ++ ascii "nan"
  | signed negative m => (if negative then [Byte.minus] else []) ++ m.text .standard

end Binary64

end Sketch
