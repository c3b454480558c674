import Mathlib.Algebra.Order.Field.Rat
import Mathlib.Data.Rat.Cast.Order
import Mathlib.Tactic.Positivity
import Mathlib.Tactic.Ring
import Sketch.Proofs.Decimal

/-!
# The value of a decimal numeral

The value of a numeral is the integer before its point plus the digits after it as a fraction
(`Text.fixedValue`). Digits are weighed by their distance to the end (`Text.digitsValue_append`), so
zeros in front of a numeral and zeros behind its fraction do not change its value
(`Text.fixedValue_zeros`, `Text.fixedValue_append_zeros`), and both parts together, read as one
integer, are the value times a power of ten (`Text.fixedValue_point`).
-/

namespace Sketch

namespace Text

/-- Digits `s` in front of others count as many powers of ten more as `t` has digits. -/
theorem digitsValue_append (s t : Text) :
    digitsValue (s ++ t) = digitsValue s * 10 ^ t.length + digitsValue t := by
  induction t using List.reverseRecOn with
  | nil => simp [digitsValue]
  | append_singleton t b ih =>
    have hlast : ∀ u : Text, digitsValue (u ++ [b]) =
        10 * digitsValue u + (b - Byte.digitZero).toNat := fun u => by
      simp [digitsValue, List.foldl_append]
    rw [← List.append_assoc, hlast, hlast, ih, List.length_append, List.length_singleton]
    ring

/-- Each of the `k` zeros behind the digits `s` multiplies their value by ten. -/
theorem digitsValue_append_zeros (s : Text) (k : Nat) :
    digitsValue (s ++ List.replicate k Byte.digitZero) = digitsValue s * 10 ^ k := by
  have hzeros : digitsValue (List.replicate k Byte.digitZero) = 0 := by
    have h := digitsValue_zeros k []
    rwa [List.append_nil] at h
  rw [digitsValue_append, hzeros, List.length_replicate, Nat.add_zero]

/-- The digits of a numeral `t` before its point, which are all of `t` if it has none. -/
def wholePart (t : Text) : Text := t.beforeFirst Byte.dot

/-- The digits of a numeral `t` after its point, which are none if it has no point. -/
def fractionPart (t : Text) : Text := t.afterFirst Byte.dot

/-- The value of a numeral `t` as a rational number: the integer `wholePart`, and `fractionPart` as
a fraction. -/
def fixedValue (t : Text) : ℚ :=
  digitsValue t.wholePart + digitsValue t.fractionPart / 10 ^ t.fractionPart.length

/-- The value of a numeral `t` as one quotient: both of its parts are read as one integer, over a
power of ten for the digits after the point. -/
theorem fixedValue_eq_div (t : Text) :
    t.fixedValue = digitsValue (t.wholePart ++ t.fractionPart) / 10 ^ t.fractionPart.length := by
  have hpos : (10 : ℚ) ^ t.fractionPart.length ≠ 0 := by positivity
  rw [digitsValue_append, Nat.cast_add, Nat.cast_mul, Nat.cast_pow, Nat.cast_ofNat, add_div,
    mul_div_cancel_right₀ _ hpos]
  rfl

section Fixed

variable {whole : Text} (hwhole : Byte.dot ∉ whole)
include hwhole

/-- The value of the digits `whole` without a point is the integer that they write. -/
theorem fixedValue_digits : fixedValue whole = digitsValue whole := by
  obtain ⟨hw, hf⟩ := parts_of_notMem hwhole
  rw [fixedValue_eq_div, wholePart, fractionPart, hw, hf, List.append_nil, List.length_nil,
    pow_zero, div_one]

/-- The value of the digits `whole` with a point and a `fraction` behind them, as one quotient. -/
theorem fixedValue_point (fraction : Text) : fixedValue (whole ++ Byte.dot :: fraction) =
    digitsValue (whole ++ fraction) / 10 ^ fraction.length := by
  obtain ⟨hw, hf⟩ := parts_append_cons hwhole fraction
  rw [fixedValue_eq_div, wholePart, fractionPart, hw, hf]

end Fixed

/-- A text `t` without a point is all before it, and another one has a first point, after `whole`.
-/
theorem exists_point (t : Text) : Byte.dot ∉ t ∨
    ∃ whole fraction, t = whole ++ Byte.dot :: fraction ∧ Byte.dot ∉ whole := by
  by_cases hdot : Byte.dot ∈ t
  · obtain ⟨whole, fraction, rfl, hwhole⟩ := List.eq_append_cons_of_mem hdot
    exact .inr ⟨whole, fraction, rfl, hwhole⟩
  · exact .inl hdot

/-- The `k` zeros in front of a numeral `t`, whether or not it has a point, do not change its value.
-/
theorem fixedValue_zeros (k : Nat) (t : Text) :
    fixedValue (List.replicate k Byte.digitZero ++ t) = fixedValue t := by
  have hzeros : Byte.dot ∉ List.replicate k Byte.digitZero := by
    intro hdot
    cases List.eq_of_mem_replicate hdot
  rcases exists_point t with hdot | ⟨whole, fraction, rfl, hwhole⟩
  · have hdot' : Byte.dot ∉ List.replicate k Byte.digitZero ++ t := by simp [hzeros, hdot]
    rw [fixedValue_digits hdot', fixedValue_digits hdot, digitsValue_zeros]
  · have hwhole' : Byte.dot ∉ List.replicate k Byte.digitZero ++ whole := by simp [hzeros, hwhole]
    rw [← List.append_assoc, fixedValue_point hwhole', fixedValue_point hwhole, List.append_assoc,
      digitsValue_zeros]

/-- The `k` zeros behind the fraction of a numeral `t` do not change its value. Without a point
(`h`) they would. -/
theorem fixedValue_append_zeros {t : Text} (h : Byte.dot ∈ t) (k : Nat) :
    fixedValue (t ++ List.replicate k Byte.digitZero) = fixedValue t := by
  rcases exists_point t with hdot | ⟨whole, fraction, rfl, hwhole⟩
  · exact absurd h hdot
  · have hpos : (10 : ℚ) ^ k ≠ 0 := by positivity
    rw [List.append_assoc, List.cons_append, fixedValue_point hwhole, fixedValue_point hwhole,
      ← List.append_assoc, digitsValue_append_zeros, List.length_append, List.length_replicate,
      Nat.cast_mul, Nat.cast_pow, Nat.cast_ofNat, pow_add, mul_div_mul_right _ _ hpos]

end Text

end Sketch
