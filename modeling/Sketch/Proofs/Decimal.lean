import Mathlib.Algebra.Group.Nat.Defs
import Mathlib.Data.List.Basic
import Sketch.Proofs.Literal

/-!
# Every size has a numeral

A size is a whole number of units of `2^-1074`, and so it is a decimal number with 1074 digits after
its point: the digits are those of its units, times `5^1074` (`Magnitude.decimalDigits`).
`Magnitude.ofNumeral_numeral` shows that the numeral with these digits denotes the size and no
other, since rounding keeps what is exact. Infinity is no exception. It has the units that would
come next after those of the greatest finite size, and they are rounded to it.
-/

namespace Sketch

namespace Text

/-- Zeros in front of `digits` do not count: `digitsValue` is the same with `k` of them. -/
theorem digitsValue_zeros (k : Nat) (digits : Text) :
    digitsValue (List.replicate k Byte.digitZero ++ digits) = digitsValue digits := by
  induction k with
  | zero => rfl
  | succ k ih => exact ih

/-- A digit character `c` of a decimal number has, as a byte, the value that the character itself
stands for. -/
theorem toNat_digit {c : Char} (h : c.isDigit) :
    (c.toUInt8 - Byte.digitZero).toNat = c.toNat - '0'.toNat := by
  have hbyte : c.toUInt8.toNat = c.toNat % 2 ^ 8 := UInt32.toNat_toUInt8 c.val
  have hzero : Byte.digitZero.toNat = 48 := rfl
  have hzero' : '0'.toNat = 48 := rfl
  simp [Char.isDigit, UInt32.le_iff_toNat_le] at h
  have hle : Byte.digitZero ≤ c.toUInt8 := by
    rw [UInt8.le_iff_toNat_le]
    omega
  rw [UInt8.toNat_sub_of_le _ _ hle]
  omega

/-- The natural number `n` is the `digitsValue` of the text `ofNat n` that it is written as. -/
theorem digitsValue_ofNat (n : Nat) : digitsValue (ofNat n) = n := by
  have hdigits : ∀ c ∈ Nat.toDigits 10 n, c.isDigit := fun c hc =>
    Nat.isDigit_of_mem_toDigits (by decide) (by decide) hc
  calc
    digitsValue (ofNat n) =
        (Nat.toDigits 10 n).foldl (fun v c => 10 * v + (c.toUInt8 - Byte.digitZero).toNat) 0 := by
      rw [digitsValue, ofNat, List.foldl_map]
    _ = Nat.ofDigitChars 10 (Nat.toDigits 10 n) 0 :=
      List.foldl_ext _ _ _ fun v c hc => by rw [toNat_digit (hdigits c hc)]
    _ = n := Nat.ofDigitChars_ten_toDigits

/-- A natural number is written by `ofNat` with at least one digit, zero included. -/
theorem ofNat_ne_nil (n : Nat) : ofNat n ≠ [] := by
  rw [ofNat, ne_eq, List.map_eq_nil_iff]
  exact List.length_pos_iff.mp Nat.length_toDigits_pos

end Text

namespace Magnitude

/-- How many digits a unit of `2^-1074` has after its point, since `2^-1074 = 5^1074 / 10^1074`. -/
def places : Nat := 1074

/-- The digits of the size `m`, the last `places` of which stand after its point. The zeros in front
leave room for them. -/
def decimalDigits (m : Magnitude) : Text :=
  List.replicate places Byte.digitZero ++ Text.ofNat (m.units * 5 ^ places)

/-- The count of digits of `m.decimalDigits` in front of the point, which are the digits of the
scaled integer. -/
def pointPlace (m : Magnitude) : Nat := m.decimalDigits.length - places

/-- The numeral of the size `m`: its `decimalDigits` with a point in front of the last `places` of
them. -/
def numeral (m : Magnitude) : Text :=
  m.decimalDigits.take m.pointPlace ++ Byte.dot :: m.decimalDigits.drop m.pointPlace

variable (m : Magnitude)

/-- All bytes of `decimalDigits` are digits, both the zeros in front and the digits of the scaled
integer. -/
theorem isDigit_of_mem_decimalDigits : ∀ b ∈ m.decimalDigits, b.isDigit := by
  intro b hb
  rcases List.mem_append.mp hb with hzero | hdigit
  · rw [List.eq_of_mem_replicate hzero]
    rfl
  · exact Text.isDigit_of_mem_ofNat hdigit

/-- The `pointPlace` of `m` is the length of its scaled integer, so the zeros in front are as many
as `places`. -/
theorem pointPlace_eq : m.pointPlace = (Text.ofNat (m.units * 5 ^ places)).length := by
  rw [pointPlace, decimalDigits, List.length_append, List.length_replicate, Nat.add_sub_cancel_left]

/-- The `decimalDigits` of `m` are the digits in front of the point and `places` more. -/
theorem length_decimalDigits : m.decimalDigits.length = places + m.pointPlace := by
  rw [pointPlace_eq, decimalDigits, List.length_append, List.length_replicate]

/-- The `decimalDigits` of `m`, read as one integer, are its units times `5^1074`. -/
theorem digitsValue_decimalDigits : Text.digitsValue m.decimalDigits = m.units * 5 ^ places := by
  rw [decimalDigits, Text.digitsValue_zeros, Text.digitsValue_ofNat]

/-- The bytes in front of the point of a numeral of `m` are digits. -/
theorem isDigit_of_mem_whole : ∀ b ∈ m.decimalDigits.take m.pointPlace, b.isDigit :=
  fun b hb => m.isDigit_of_mem_decimalDigits b (List.mem_of_mem_take hb)

/-- The numeral of a size `m` is a numeral of the language (`IsNumeral`): digits around one point.
-/
theorem isNumeral_numeral : IsNumeral m.numeral := by
  refine (isNumeral_point m.isDigit_of_mem_whole).mpr ⟨fun b hb => ?_, .inl fun hnil => ?_⟩
  · exact m.isDigit_of_mem_decimalDigits b (List.mem_of_mem_drop hb)
  · have hlength := congrArg List.length hnil
    have hpos : 0 < m.pointPlace := by
      rw [pointPlace_eq]
      exact List.length_pos_iff.mpr (Text.ofNat_ne_nil _)
    rw [List.length_take, length_decimalDigits, List.length_nil] at hlength
    omega

/-- The numeral of a finite size `m` denotes it: `Binary64.ofNumeral` rounds an exact quotient, and
nothing is lost. -/
theorem ofNumeral_numeral : Binary64.ofNumeral m.numeral = .signed false m := by
  have hplaces : (m.decimalDigits.drop m.pointPlace).length = places := by
    rw [List.length_drop, length_decimalDigits, Nat.add_sub_cancel]
  have hone : Binary64.unitsPerOne = 2 ^ places := Nat.one_shiftLeft places
  rw [numeral, Binary64.ofNumeral_point m.isDigit_of_mem_whole, Binary64.ofDigits,
    List.take_append_drop, hplaces, digitsValue_decimalDigits, hone]
  -- The powers of five and of two make up the power of ten that the digits are divided by.
  have hten : ∀ k, m.units * 5 ^ k * 2 ^ k = m.units * Nat.pow 10 k := by
    intro k
    rw [Nat.mul_assoc, ← Nat.mul_pow]
    rfl
  have hpos : ∀ k, 0 < Nat.pow 10 k := fun k => Nat.pow_pos (by decide)
  rw [hten, nearest_units_mul m _ (hpos places)]

end Magnitude

end Sketch
