import Sketch.Text
import Sketch.Binary64.Rounding

/-!
# Number literals

A number literal is a run of decimal digits with at most one point in or around it, such as `12`,
`.5`, `3.` or `0.25`. Its value is the exact decimal value rounded once to binary64, however many
digits it has.
-/

namespace Sketch

namespace Text

/-- The natural number that a run of decimal `digits` denotes, the first digit being the highest. An
empty run denotes 0. -/
def digitsValue (digits : Text) : Nat :=
  digits.foldl (fun n b => 10 * n + (b - Byte.digitZero).toNat) 0

end Text

namespace Binary64

/-- The number nearest to the decimal number with the digits `whole` before its point and `fraction`
after it. All the digits count, and there is one rounding. -/
def ofDigits (whole fraction : Text) : Binary64 :=
  signed false
    (.nearest (Text.digitsValue (whole ++ fraction) * unitsPerOne) (Nat.pow 10 fraction.length))

/-- The value of the number literal `t`: digits with at most one point, and at least one digit.
Nothing for a text of another form. -/
def ofLiteral? (t : Text) : Option Binary64 :=
  let whole := t.takeWhile Byte.isDigit
  match t.dropWhile Byte.isDigit with
  | [] => if whole.isEmpty then none else some (ofDigits whole [])
  | b :: fraction =>
    if b == Byte.dot && fraction.all Byte.isDigit && !(whole.isEmpty && fraction.isEmpty) then
      some (ofDigits whole fraction)
    else none

end Binary64

end Sketch
