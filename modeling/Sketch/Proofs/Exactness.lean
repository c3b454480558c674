import Mathlib.Algebra.Group.Int.Defs
import Mathlib.Algebra.Group.Nat.Defs
import Sketch.Binary64.Rounding

/-!
# Numbers that are exact

A count of units with at most 53 significant bits is the number of units of some finite size
(`Magnitude.exists_units_eq`), so rounding keeps it (`Magnitude.units_nearest`,
`Binary64.units?_ofUnits_mul_two_pow`). Integers below `2^53` are such counts, and
`Binary64.units?_ofInt` shows that the number nearest to one of them is that integer.
-/

namespace Sketch

namespace Magnitude

/-- The units of a size after the first block: its rank is a `block` and a `fraction` of 52 bits,
and its first bit is implied. -/
theorem units_mk (block fraction : Nat) (hfraction : fraction < 2 ^ 52)
    (h : (block + 1) * 2 ^ 52 + fraction ≤ infinityRank) :
    units ⟨(block + 1) * 2 ^ 52 + fraction, h⟩ = (2 ^ 52 + fraction) * 2 ^ block := by
  have hsize : blockSize = 2 ^ 52 := rfl
  have hmod : ((block + 1) * 2 ^ 52 + fraction) % 2 ^ 52 = fraction := by omega
  have hdiv : ((block + 1) * 2 ^ 52 + fraction) / 2 ^ 52 = block + 1 := by omega
  have hlarge : ¬ (block + 1) * 2 ^ 52 + fraction < 2 ^ 52 := by omega
  simp only [units, hsize]
  rw [if_neg hlarge, hmod, hdiv, Nat.shiftLeft_eq, Nat.add_sub_cancel]

/-- A positive count `k` of at most 53 bits, scaled by `2 ^ e`, is the number of units of a finite
size `m`. The bounds on `e` keep it among the sizes with a full significand. -/
theorem exists_units_eq {k e : Nat} (hpos : 0 < k) (hk : k < 2 ^ 53) (he : 52 ≤ e)
    (hmax : e ≤ 2045) : ∃ m : Magnitude, m.isFinite ∧ m.units = k * 2 ^ e := by
  -- The first bit of the count moves to the place in front of the 52 bits of a fraction.
  have hlow : 2 ^ k.log2 ≤ k := Nat.log2_self_le (Nat.pos_iff_ne_zero.mp hpos)
  have hhigh : k < 2 ^ (k.log2 + 1) := Nat.lt_log2_self
  have hlog : k.log2 ≤ 52 := by
    have := (Nat.log2_lt (Nat.pos_iff_ne_zero.mp hpos)).mpr hk
    omega
  generalize k.log2 = bits at hlow hhigh hlog
  obtain ⟨shift, hshift⟩ : ∃ shift, bits + shift = 52 := ⟨52 - bits, by omega⟩
  have hpow : 2 ^ bits * 2 ^ shift = 2 ^ 52 := by rw [← Nat.pow_add, hshift]
  have hfirst : 2 ^ 52 ≤ k * 2 ^ shift := by
    rw [← hpow]
    exact Nat.mul_le_mul_right _ hlow
  have hlast : k * 2 ^ shift < 2 ^ 53 := by
    calc
      k * 2 ^ shift < 2 ^ (bits + 1) * 2 ^ shift :=
        Nat.mul_lt_mul_of_pos_right hhigh (Nat.two_pow_pos _)
      _ = 2 ^ bits * 2 ^ shift * 2 := by rw [Nat.pow_succ, Nat.mul_right_comm]
      _ = 2 ^ 53 := by omega
  obtain ⟨fraction, hfraction⟩ : ∃ fraction, k * 2 ^ shift = 2 ^ 52 + fraction :=
    ⟨k * 2 ^ shift - 2 ^ 52, by omega⟩
  have hrank : (e - shift + 1) * 2 ^ 52 + fraction < infinityRank := by
    have hblock : e - shift + 1 ≤ 2046 := by omega
    have hsize : infinityRank = 2047 * 2 ^ 52 := rfl
    omega
  refine ⟨⟨_, Nat.le_of_lt hrank⟩, decide_eq_true hrank, ?_⟩
  rw [units_mk _ _ (by omega), ← hfraction, Nat.mul_assoc, ← Nat.pow_add]
  congr 2
  omega

/-- The rounding `nearest` keeps a count `k` of at most 53 bits, scaled by `2 ^ e`, and its result
is finite. -/
theorem units_nearest {k e : Nat} (hk : k < 2 ^ 53) (he : 52 ≤ e) (hmax : e ≤ 2045) :
    (nearest (k * 2 ^ e) 1).isFinite ∧ (nearest (k * 2 ^ e) 1).units = k * 2 ^ e := by
  rcases Nat.eq_zero_or_pos k with rfl | hpos
  · rw [Nat.zero_mul]
    decide
  · obtain ⟨m, hfinite, hunits⟩ := exists_units_eq hpos hk he hmax
    rw [← hunits, nearest_units]
    exact ⟨hfinite, rfl⟩

end Magnitude

namespace Binary64

/-- The rounding `ofUnits` keeps an integer `z` of at most 53 bits, scaled by `2 ^ e`, with its
sign. -/
theorem units?_ofUnits_mul_two_pow {z : Int} {e : Nat} (h : z.natAbs < 2 ^ 53) (he : 52 ≤ e)
    (hmax : e ≤ 2045) : (ofUnits (z * (2 ^ e : Nat))).units? = some (z * (2 ^ e : Nat)) := by
  obtain ⟨hfinite, hunits⟩ := Magnitude.units_nearest h he hmax
  have hnat : (z * (2 ^ e : Nat)).natAbs = z.natAbs * 2 ^ e := by
    rw [Int.natAbs_mul, Int.natAbs_natCast]
  rw [ofUnits, hnat, units?, if_pos hfinite, hunits, ← hnat]
  -- The sign of the count of units is that of the integer.
  generalize z * (2 ^ e : Nat) = units
  by_cases hneg : units < 0
  · simp only [hneg, decide_true, if_true, Option.some.injEq]
    omega
  · simp only [hneg, decide_false, Bool.false_eq_true, if_false, Option.some.injEq]
    omega

/-- One is `2^1074` units, written with an exponent `e` that does not let a proof compute the power.
-/
theorem unitsPerOne_eq {e : Nat} (h : 1074 = e) : unitsPerOne = 2 ^ e := by
  rw [unitsPerOne, h, Nat.one_shiftLeft]

/-- The number nearest to an integer `z` below `2^53` in size is that integer, in units. -/
theorem units?_ofInt {z : Int} (h : z.natAbs < 2 ^ 53) :
    (ofInt z).units? = some (z * unitsPerOne) := by
  obtain ⟨e, he⟩ : ∃ e, 1074 = e := ⟨_, rfl⟩
  rw [ofInt, unitsPerOne_eq he]
  exact units?_ofUnits_mul_two_pow h (by omega) (by omega)

end Binary64

end Sketch
