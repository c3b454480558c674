import Mathlib.Algebra.Order.Field.Basic
import Mathlib.Data.Nat.Cast.Order.Field
import Mathlib.Data.Rat.Cast.Order
import Mathlib.Tactic.FieldSimp
import Mathlib.Tactic.LinearCombination
import Mathlib.Tactic.Linarith
import Mathlib.Tactic.Ring
import Sketch.Proofs.Monotone

/-!
# Rounding finds the nearest size

A size is the one nearest to a value if no finite size is nearer, a tie goes to the even one, and
what is beyond half a step above the greatest finite size goes to infinity (`Magnitude.IsNearest`).
Every value has one such size (`Magnitude.isNearest_nearest`, `Magnitude.IsNearest.eq`), and a
greater value has no smaller one (`Magnitude.IsNearest.rank_le`).

A quotient of units is rounded to a multiple of a power of two, as an integer of at most 53 bits
times that power (`Magnitude.units_nearest_eq`), and such an integer is a nearest one. The sizes
from the first of 53 bits on are multiples of the power too (`Magnitude.two_pow_dvd_units`), and
those below that one are farther away. Infinity stands where the next size would, so it needs no
case of its own, and its side of the threshold is the one nearer to it.
-/

namespace Sketch

section RoundHalfEven

variable (n : Nat) {d j : Nat}

/-- The rounding `roundHalfEven` moves a quotient `n / d` by at most one half. -/
theorem abs_roundHalfEven_sub_le (hd : 0 < d) : |(roundHalfEven n d : ℚ) - n / d| ≤ 1 / 2 := by
  have hpos : (0 : ℚ) < d := Nat.cast_pos.mpr hd
  obtain ⟨hlow, hhigh⟩ := roundHalfEven_within n d hd
  have hlow' : 2 * ((d : ℚ) * roundHalfEven n d) ≤ 2 * n + d := by exact_mod_cast hlow
  have hhigh' : 2 * (n : ℚ) ≤ 2 * (d * roundHalfEven n d) + d := by exact_mod_cast hhigh
  have hn : (n : ℚ) / d * d = n := div_mul_cancel₀ _ hpos.ne'
  rw [abs_le]
  constructor
  · refine le_of_mul_le_mul_right ?_ hpos
    linarith
  · refine le_of_mul_le_mul_right ?_ hpos
    linarith

/-- A quotient `n / d` that `roundHalfEven` moves by just one half is rounded to an even integer. -/
theorem roundHalfEven_even_of_abs_eq (hd : 0 < d)
    (h : |(roundHalfEven n d : ℚ) - n / d| = 1 / 2) : roundHalfEven n d % 2 = 0 := by
  have hpos : (0 : ℚ) < d := Nat.cast_pos.mpr hd
  have hn : (n : ℚ) / d * d = n := div_mul_cancel₀ _ hpos.ne'
  refine roundHalfEven_even n d hd ?_
  rcases eq_or_eq_neg_of_abs_eq h with hup | hdown
  · left
    have hscaled : 2 * ((d : ℚ) * roundHalfEven n d) = 2 * n + d := by
      linear_combination 2 * (d : ℚ) * hup + 2 * hn
    exact_mod_cast hscaled
  · right
    have hscaled : 2 * (n : ℚ) = 2 * (d * roundHalfEven n d) + d := by
      linear_combination -2 * (d : ℚ) * hdown - 2 * hn
    exact_mod_cast hscaled

/-- An integer `j` other than the rounded one is at least one half away from the quotient `n / d`.
-/
theorem half_le_abs_sub (hd : 0 < d) (hj : j ≠ roundHalfEven n d) :
    1 / 2 ≤ |(j : ℚ) - n / d| := by
  have hstep : (1 : ℚ) ≤ |(j : ℚ) - roundHalfEven n d| := by
    have hne : (j : ℤ) - roundHalfEven n d ≠ 0 := sub_ne_zero.mpr (by exact_mod_cast hj)
    exact_mod_cast Int.one_le_abs hne
  have hround := abs_roundHalfEven_sub_le n hd
  have htriangle := abs_sub_le (j : ℚ) (n / d) (roundHalfEven n d)
  rw [abs_sub_comm (n / d : ℚ)] at htriangle
  linarith

/-- No integer `j` is nearer to a quotient `n / d` than the rounded one. -/
theorem abs_roundHalfEven_sub_le_abs (hd : 0 < d) (j : Nat) :
    |(roundHalfEven n d : ℚ) - n / d| ≤ |(j : ℚ) - n / d| := by
  rcases eq_or_ne j (roundHalfEven n d) with rfl | hj
  · exact le_rfl
  · exact (abs_roundHalfEven_sub_le n hd).trans (half_le_abs_sub n hd hj)

/-- If an integer `j` other than the rounded one is as near to the quotient `n / d`, the rounded one
is even. -/
theorem roundHalfEven_even_of_tie (hd : 0 < d) (hj : j ≠ roundHalfEven n d)
    (h : |(j : ℚ) - n / d| = |(roundHalfEven n d : ℚ) - n / d|) : roundHalfEven n d % 2 = 0 := by
  have hhalf := half_le_abs_sub n hd hj
  rw [h] at hhalf
  exact roundHalfEven_even_of_abs_eq n hd (le_antisymm (abs_roundHalfEven_sub_le n hd) hhalf)

end RoundHalfEven

section Middle

variable {a b v : ℚ}

/-- The greater of two values, `b`, is as near to `v` as `a` is only if `v` is in their middle or
above. -/
theorem add_le_two_mul_of_abs_le (h : a < b) (hnear : |b - v| ≤ |a - v|) : a + b ≤ 2 * v := by
  have hb := le_abs_self (b - v)
  rcases abs_choice (a - v) with ha | ha
  · linarith
  · linarith

/-- The lesser of two values, `a`, is as near to `v` as `b` is only if `v` is in their middle or
below. -/
theorem two_mul_le_add_of_abs_le (h : a < b) (hnear : |a - v| ≤ |b - v|) : 2 * v ≤ a + b := by
  have ha := neg_abs_le (a - v)
  rcases abs_choice (b - v) with hb | hb
  · linarith
  · linarith

/-- The distance of the multiple `j` of a `step` to a value `v`, counted in steps. -/
theorem abs_mul_sub {step : ℚ} (hstep : 0 < step) (j v : ℚ) :
    |j * step - v| = |j - v / step| * step := by
  have hsub : j * step - v = (j - v / step) * step := by
    rw [sub_mul, div_mul_cancel₀ _ hstep.ne']
  rw [hsub, abs_mul, abs_of_pos hstep]

end Middle

namespace Magnitude

/-! ## The sizes -/

/-- A size `n` of greater rank than `m` has more units, so no two ranks stand for one size. -/
theorem units_lt {m n : Magnitude} (h : m.rank < n.rank) : m.units < n.units := by
  refine lt_of_le_of_ne (units_mono h.le) fun heq => ?_
  have hsame : nearest m.units 1 = nearest n.units 1 := by rw [heq]
  rw [nearest_units, nearest_units] at hsame
  exact absurd (congrArg rank hsame) h.ne

/-- Two sizes `m` and `n` with as many units are the same, as `units_lt` is strict. -/
theorem units_inj {m n : Magnitude} : m.units = n.units ↔ m = n := by
  refine ⟨fun h => ?_, congrArg units⟩
  rw [← nearest_units m, h, nearest_units]

/-- An integer `k` of 53 bits, times `2 ^ shift`, has the rank that the `shift` in blocks and `k`
add up to. Without a shift `k` may have fewer bits (`hlow`). -/
theorem units_of_rank {m : Magnitude} {shift k : Nat} (h : m.rank = shift * 2 ^ 52 + k)
    (hlow : shift = 0 ∨ 2 ^ 52 ≤ k) (hhigh : k ≤ 2 ^ 53) : m.units = k * 2 ^ shift := by
  obtain ⟨rank, rank_le⟩ := m
  obtain rfl : rank = shift * 2 ^ 52 + k := h
  rcases lt_or_ge k (2 ^ 52) with hsmall | hlarge
  · obtain rfl : shift = 0 := by omega
    rw [units_of_lt (by simpa using hsmall)]
    simp
  rcases hhigh.lt_or_eq with hlt | rfl
  · -- The bits after the first one are the fraction of a block.
    obtain ⟨fraction, rfl⟩ := Nat.exists_eq_add_of_le hlarge
    have hrank : shift * 2 ^ 52 + (2 ^ 52 + fraction) = (shift + 1) * 2 ^ 52 + fraction := by omega
    simp only [hrank] at rank_le ⊢
    exact units_mk shift fraction (by omega) rank_le
  · have hrank : shift * 2 ^ 52 + 2 ^ 53 = (shift + 1 + 1) * 2 ^ 52 + 0 := by omega
    simp only [hrank] at rank_le ⊢
    rw [units_mk (shift + 1) 0 (by decide) rank_le, Nat.pow_succ]
    omega

/-- A size `m` of at least 53 bits more than `2 ^ shift` is a multiple of `2 ^ shift`. -/
theorem two_pow_dvd_units {m : Magnitude} {shift : Nat} (h : 2 ^ 52 * 2 ^ shift ≤ m.units) :
    2 ^ shift ∣ m.units := by
  have hpos : 0 < 2 ^ shift := Nat.two_pow_pos shift
  rcases lt_or_ge m.rank (2 ^ 52) with hrank | hrank
  · rw [units_of_lt hrank] at h
    have := Nat.le_mul_of_pos_right (2 ^ 52) hpos
    omega
  · obtain ⟨block, fraction, -, hfraction, hunits⟩ := exists_block hrank
    rw [hunits] at h ⊢
    refine Dvd.dvd.mul_left (Nat.pow_dvd_pow 2 ?_) _
    -- A smaller block than the shift would not reach up to `2 ^ 52 * 2 ^ shift`.
    by_contra! hlt
    have hblock : 2 * 2 ^ block ≤ 2 ^ shift := by
      rw [← Nat.pow_succ']
      exact Nat.pow_le_pow_right (by decide) hlt
    have hlarge : (2 ^ 52 + fraction) * 2 ^ block < 2 ^ 52 * (2 * 2 ^ block) := by
      rw [← Nat.mul_assoc]
      exact Nat.mul_lt_mul_of_pos_right (by omega) (Nat.two_pow_pos _)
    have := Nat.mul_le_mul_left (2 ^ 52) hblock
    omega

/-! ## The rounded quotient -/

section Quotient

variable {num den : Nat}

/-- Either the quotient is not shifted at all, or it has at least 53 bits. -/
theorem shift_eq_zero_or : shift num den = 0 ∨ 52 ≤ (num / den).log2 := by
  rw [shift]
  omega

/-- A quotient of more bits than a finite size has is rounded by `nearest` to infinity. -/
theorem nearest_of_le_log2 (h : 2098 ≤ (num / den).log2) : nearest num den = infinity := by
  have hlow : 2 ^ 52 ≤ significand num den := le_significand (by omega)
  have hshift : 2046 ≤ shift num den := by
    rw [shift]
    omega
  have hrank : infinityRank ≤ shift num den * 2 ^ 52 + significand num den := by
    have hsize : infinityRank = 2047 * 2 ^ 52 := rfl
    omega
  rw [nearest_eq_ofRank, ofRank, infinity]
  simp only [Nat.min_eq_right hrank]

/-- A quotient of no more bits than a finite size is rounded to the size whose rank is its `shift`
in blocks and its `significand`. -/
theorem rank_nearest (h : (num / den).log2 < 2098) :
    (nearest num den).rank = shift num den * 2 ^ 52 + significand num den := by
  have hhigh : significand num den ≤ 2 ^ 53 := significand_le
  have hrank : shift num den * 2 ^ 52 + significand num den ≤ infinityRank := by
    have hsize : infinityRank = 2047 * 2 ^ 52 := rfl
    rw [shift] at *
    omega
  rw [nearest_eq_ofRank, ofRank]
  exact Nat.min_eq_left hrank

/-- The units of a rounded quotient are its `significand`, shifted back by its `shift`. -/
theorem units_nearest_eq (h : (num / den).log2 < 2098) :
    (nearest num den).units = significand num den * 2 ^ shift num den :=
  units_of_rank (rank_nearest h) (shift_eq_zero_or.imp_right le_significand) significand_le

/-- The distance of the multiple `j` of `2 ^ shift` to the quotient `num / den`, counted in that
power. -/
theorem abs_mul_two_pow_sub (num den j shift : Nat) :
    |((j * 2 ^ shift : Nat) : ℚ) - num / den| =
      |(j : ℚ) - num / (den * 2 ^ shift : Nat)| * 2 ^ shift := by
  have hpos : (0 : ℚ) < 2 ^ shift := by positivity
  push_cast
  rw [abs_mul_sub hpos, div_div]

/-- A size `n` is a multiple of the power of two that the quotient is shifted by, or it is farther
away from the quotient than the least multiple of 53 bits, which is not above the quotient. -/
theorem exists_multiple_or_farther (num den : Nat) (n : Magnitude) :
    (∃ j, n.units = j * 2 ^ shift num den) ∨
      |((2 ^ 52 * 2 ^ shift num den : Nat) : ℚ) - num / den| < |(n.units : ℚ) - num / den| := by
  rcases lt_or_ge n.units (2 ^ 52 * 2 ^ shift num den) with hlt | hge
  · rcases (shift_eq_zero_or : shift num den = 0 ∨ _) with hzero | hlog
    · -- Without a shift, every size is a multiple.
      exact .inl ⟨n.units, by rw [hzero, Nat.pow_zero, Nat.mul_one]⟩
    · have hle := le_quotient hlog
      have hquotient : ((2 ^ 52 * 2 ^ shift num den : Nat) : ℚ) ≤ num / den :=
        (Nat.cast_le.mpr hle).trans Nat.cast_div_le
      have hunits : (n.units : ℚ) < (2 ^ 52 * 2 ^ shift num den : Nat) := Nat.cast_lt.mpr hlt
      right
      generalize ((2 ^ 52 * 2 ^ shift num den : Nat) : ℚ) = least at *
      rw [abs_of_nonpos (by linarith), abs_of_nonpos (by linarith)]
      linarith
  · -- From 53 bits on, the sizes are multiples.
    obtain ⟨j, hj⟩ := two_pow_dvd_units hge
    exact .inl ⟨j, by rw [hj, Nat.mul_comm]⟩

/-- No size `n` is nearer to a quotient `num / den` than the rounded one, below the bits of infinity
(`h`). -/
theorem abs_units_nearest_sub_le (hden : 0 < den) (h : (num / den).log2 < 2098) (n : Magnitude) :
    |((nearest num den).units : ℚ) - num / den| ≤ |(n.units : ℚ) - num / den| := by
  have hscale : (0 : ℚ) ≤ 2 ^ shift num den := by positivity
  have hmultiple : ∀ j : Nat, |((nearest num den).units : ℚ) - num / den| ≤
      |((j * 2 ^ shift num den : Nat) : ℚ) - num / den| := by
    intro j
    rw [units_nearest_eq h, abs_mul_two_pow_sub, abs_mul_two_pow_sub]
    refine mul_le_mul_of_nonneg_right ?_ hscale
    exact abs_roundHalfEven_sub_le_abs num (Nat.mul_pos hden (Nat.two_pow_pos _)) j
  rcases exists_multiple_or_farther num den n with ⟨j, hj⟩ | hfarther
  · rw [hj]
    exact hmultiple j
  · exact (hmultiple (2 ^ 52)).trans hfarther.le

/-- If a size `n` other than the rounded one is as near to the quotient (`htie`), the rounded one
has an even rank. -/
theorem rank_nearest_even (hden : 0 < den) (h : (num / den).log2 < 2098) {n : Magnitude}
    (hn : n ≠ nearest num den)
    (htie : |(n.units : ℚ) - num / den| = |((nearest num den).units : ℚ) - num / den|) :
    (nearest num den).rank % 2 = 0 := by
  have hpos : 0 < den * 2 ^ shift num den := Nat.mul_pos hden (Nat.two_pow_pos _)
  have hscale : (2 : ℚ) ^ shift num den ≠ 0 := by positivity
  have heven : significand num den % 2 = 0 := by
    rcases exists_multiple_or_farther num den n with ⟨j, hj⟩ | hfarther
    · have hne : j ≠ significand num den := by
        rintro rfl
        exact hn (units_inj.mp (hj.trans (units_nearest_eq h).symm))
      rw [hj, units_nearest_eq h, abs_mul_two_pow_sub, abs_mul_two_pow_sub] at htie
      exact roundHalfEven_even_of_tie num hpos hne (mul_right_cancel₀ hscale htie)
    · -- The least multiple of 53 bits would be nearer than the rounded quotient.
      rw [htie, units_nearest_eq h, abs_mul_two_pow_sub, abs_mul_two_pow_sub] at hfarther
      have hclose := abs_roundHalfEven_sub_le_abs num hpos (2 ^ 52)
      exact absurd (lt_of_mul_lt_mul_right hfarther (by positivity)) (not_lt.mpr hclose)
  -- The shift adds whole blocks of the list of sizes, which are even in length.
  rw [rank_nearest h]
  omega

end Quotient

/-! ## The nearest size -/

/-- The value of the size `m` as a rational number, where `unitsPerOne` units are one. -/
def value (m : Magnitude) : ℚ := m.units / Binary64.unitsPerOne

/-- A size is the one nearest to a value. A value from half a step above the greatest finite size on
goes to infinity, and a tie to the size with the even rank, whose last bit is zero. -/
structure IsNearest (v : ℚ) (m : Magnitude) : Prop where
  isFinite_iff : m.isFinite ↔ v < 2 ^ 1024 - 2 ^ 970
  abs_le : m.isFinite → ∀ n : Magnitude, n.isFinite → |m.value - v| ≤ |n.value - v|
  even : m.isFinite → ∀ n : Magnitude, n.isFinite → n ≠ m → |n.value - v| = |m.value - v| →
    m.rank % 2 = 0

/-- The number `unitsPerOne` is positive as a rational number, so that values can be divided by it.
-/
theorem unitsPerOne_pos : (0 : ℚ) < Binary64.unitsPerOne := by
  rw [Binary64.unitsPerOne, Nat.one_shiftLeft]
  exact_mod_cast Nat.two_pow_pos 1074

/-- The distance of the size `m` to a value `v`, counted in units of `2^-1074`. -/
theorem abs_value_sub (m : Magnitude) (v : ℚ) :
    |m.value - v| = |(m.units : ℚ) - v * Binary64.unitsPerOne| / Binary64.unitsPerOne := by
  have hpos := unitsPerOne_pos
  rw [← abs_of_pos hpos, ← abs_div, abs_of_pos hpos, sub_div, mul_div_cancel_right₀ _ hpos.ne']
  rfl

/-- The greatest finite size. -/
def greatest : Magnitude := ⟨infinityRank - 1, Nat.sub_le _ _⟩

/-- The `greatest` finite size has a significand of 53 ones, in the last block. -/
theorem units_greatest : greatest.units = (2 ^ 53 - 1) * 2 ^ 2045 :=
  units_of_rank (by decide) (by decide) (by decide)

/-- The rank of `infinity` continues the list of sizes by one step, to where `2^1024` would stand.
-/
theorem units_infinity : infinity.units = 2 ^ 53 * 2 ^ 2045 :=
  units_of_rank (by decide) (by decide) (by decide)

/-- The `greatest` finite size is below infinity, and no finite size `m` is above it. -/
theorem units_le_greatest {m : Magnitude} (h : m.isFinite) : m.units ≤ greatest.units := by
  refine units_mono ?_
  have hrank : m.rank < infinityRank := of_decide_eq_true h
  exact Nat.le_sub_one_of_lt hrank

/-- The only size `m` that is not finite is `infinity`. -/
theorem isFinite_iff_ne {m : Magnitude} : m.isFinite ↔ m ≠ infinity := by
  obtain ⟨rank, rank_le⟩ := m
  simp only [isFinite, infinity, ne_eq, mk.injEq, decide_eq_true_eq]
  omega

/-- Twice the least value that goes to infinity, in units: it is in the middle between the
`greatest` finite size and where `infinity` stands. -/
theorem two_mul_overflow :
    2 * (((2 : ℚ) ^ 1024 - 2 ^ 970) * Binary64.unitsPerOne) =
      greatest.units + infinity.units := by
  have hhigh : (2 : ℚ) ^ 1024 = 2 ^ 54 * 2 ^ 970 := by rw [← pow_add]
  have hshift : (2 : ℚ) ^ 2045 = 2 * (2 ^ 970 * Binary64.unitsPerOne) := by
    obtain ⟨e, he⟩ : ∃ e, 1074 = e := ⟨_, rfl⟩
    rw [Binary64.unitsPerOne_eq he, Nat.cast_pow, Nat.cast_ofNat, ← pow_add, ← pow_succ', ← he]
  have hgreatest : (greatest.units : ℚ) = (2 ^ 53 - 1) * 2 ^ 2045 := by
    rw [units_greatest, Nat.cast_mul, Nat.cast_pow, Nat.cast_ofNat]
    norm_num
  have hinfinity : (infinity.units : ℚ) = 2 ^ 53 * 2 ^ 2045 := by
    rw [units_infinity, Nat.cast_mul, Nat.cast_pow, Nat.cast_pow, Nat.cast_ofNat]
  rw [hgreatest, hinfinity, hhigh, hshift]
  generalize (2 : ℚ) ^ 970 = step
  ring

section Quotient

variable {num den : Nat}

/-- A quotient from the middle between `greatest` and `infinity` on (`h`) is rounded to `infinity`:
in the middle itself the tie goes to the even rank. -/
theorem nearest_of_overflow (hden : 0 < den)
    (h : (greatest.units : ℚ) + infinity.units ≤ 2 * (num / den)) :
    nearest num den = infinity := by
  rcases lt_or_ge (num / den).log2 2098 with hlog | hlog
  · by_contra hne
    have hbelow : ((nearest num den).units : ℚ) ≤ greatest.units :=
      Nat.cast_le.mpr (units_le_greatest (isFinite_iff_ne.mpr hne))
    have hgap : (greatest.units : ℚ) < infinity.units :=
      Nat.cast_lt.mpr (units_lt (by decide))
    have hnear := two_mul_le_add_of_abs_le (hbelow.trans_lt hgap)
      (abs_units_nearest_sub_le hden hlog infinity)
    -- Only the greatest finite size can be as near as infinity, but its rank is odd.
    have hunits : ((nearest num den).units : ℚ) = greatest.units := by linarith
    have hsame : nearest num den = greatest := units_inj.mp (Nat.cast_injective hunits)
    have htie : |(infinity.units : ℚ) - num / den| =
        |((nearest num den).units : ℚ) - num / den| := by
      rw [abs_of_nonneg (by linarith), abs_of_nonpos (by linarith)]
      linarith
    have heven := rank_nearest_even hden hlog (Ne.symm hne) htie
    rw [hsame] at heven
    exact absurd heven (by decide)
  · exact nearest_of_le_log2 hlog

/-- A quotient below the middle between `greatest` and `infinity` (`h`) is rounded to a finite size.
-/
theorem isFinite_nearest (hden : 0 < den)
    (h : 2 * ((num : ℚ) / den) < greatest.units + infinity.units) :
    (nearest num den).isFinite := by
  have hgap : (greatest.units : ℚ) < infinity.units := Nat.cast_lt.mpr (units_lt (by decide))
  have hlog : (num / den).log2 < 2098 := by
    by_contra! hlog
    have hquotient : infinity.units ≤ num / den := by
      have hne : num / den ≠ 0 := by
        intro hzero
        simp [hzero] at hlog
      obtain ⟨e, he⟩ : ∃ e, 2045 = e := ⟨_, rfl⟩
      rw [units_infinity, he, ← Nat.pow_add]
      exact (Nat.pow_le_pow_right two_pos (by omega)).trans (Nat.log2_self_le hne)
    have hle : (infinity.units : ℚ) ≤ num / den :=
      (Nat.cast_le.mpr hquotient).trans Nat.cast_div_le
    linarith
  -- Infinity is not as near as the greatest finite size to what is below their middle.
  rw [isFinite_iff_ne]
  intro hsame
  have hnear := abs_units_nearest_sub_le hden hlog greatest
  rw [hsame] at hnear
  exact absurd (add_le_two_mul_of_abs_le hgap hnear) (not_le.mpr h)

/-- The rounded quotient is the size nearest to the value `v` that is the quotient in units (`hv`):
in distance, in ties and at infinity. -/
theorem isNearest_nearest {v : ℚ} (hden : 0 < den) (hv : v * Binary64.unitsPerOne = num / den) :
    IsNearest v (nearest num den) := by
  have hpos := unitsPerOne_pos
  have hover : v < 2 ^ 1024 - 2 ^ 970 ↔
      2 * ((num : ℚ) / den) < greatest.units + infinity.units := by
    rw [← two_mul_overflow, ← hv, mul_lt_mul_iff_right₀ two_pos, mul_lt_mul_iff_left₀ hpos]
  have hlog : (nearest num den).isFinite → (num / den).log2 < 2098 := by
    intro hfinite
    by_contra! hlog
    exact isFinite_iff_ne.mp hfinite (nearest_of_le_log2 hlog)
  -- In units, each part is a fact about the quotient.
  refine ⟨?_, fun hfinite n _ => ?_, fun hfinite n _ hn htie => ?_⟩
  · rw [hover]
    refine ⟨fun hfinite => ?_, isFinite_nearest hden⟩
    by_contra! hle
    exact isFinite_iff_ne.mp hfinite (nearest_of_overflow hden hle)
  · rw [abs_value_sub, abs_value_sub, hv]
    exact div_le_div_of_nonneg_right (abs_units_nearest_sub_le hden (hlog hfinite) n) hpos.le
  · rw [abs_value_sub, abs_value_sub, hv, div_left_inj' hpos.ne'] at htie
    exact rank_nearest_even hden (hlog hfinite) hn htie

end Quotient

variable {v w : ℚ} {m n : Magnitude}

/-- A size `n` of greater rank than `m` has a greater `value`. -/
theorem value_lt (h : m.rank < n.rank) : m.value < n.value :=
  div_lt_div_of_pos_right (Nat.cast_lt.mpr (units_lt h)) unitsPerOne_pos

namespace IsNearest

/-- A size that is nearest is not below another one that is: a size between the two would be nearer
than one of them, and without one their ranks are not both even. -/
theorem rank_le_of_same (hm : IsNearest v m) (hn : IsNearest v n) (hfinite : m.isFinite)
    (hfinite' : n.isFinite) : n.rank ≤ m.rank := by
  by_contra! hlt
  have hne : m ≠ n := by
    rintro rfl
    exact lt_irrefl _ hlt
  have htie := le_antisymm (hm.abs_le hfinite n hfinite') (hn.abs_le hfinite' m hfinite)
  have heven := hm.even hfinite n hfinite' hne.symm htie.symm
  have heven' := hn.even hfinite' m hfinite hne htie
  -- Both ranks are even, so at least one size lies between the two.
  let between : Magnitude := ⟨m.rank + 1, Nat.le_trans hlt n.rank_le⟩
  have hlow : m.value < between.value := value_lt (Nat.lt_succ_self _)
  have hhigh : between.value < n.value := value_lt (show m.rank + 1 < n.rank by omega)
  have hbetween : between.isFinite := by
    have hrank : n.rank < infinityRank := of_decide_eq_true hfinite'
    exact decide_eq_true (Nat.lt_of_le_of_lt hlt hrank)
  have hnear := hm.abs_le hfinite between hbetween
  have hnear' := hn.abs_le hfinite' between hbetween
  rcases le_total between.value v with hbelow | habove
  · rw [abs_of_nonpos (by linarith), abs_of_nonpos (by linarith)] at hnear
    linarith
  · rw [abs_of_nonneg (by linarith), abs_of_nonneg (by linarith)] at hnear'
    linarith

/-- No more than one size is nearest to a value `v`, so that `IsNearest` determines the rounding. -/
theorem eq (hm : IsNearest v m) (hn : IsNearest v n) : m = n := by
  by_cases hfinite : m.isFinite
  · have hfinite' : n.isFinite := hn.isFinite_iff.mpr (hm.isFinite_iff.mp hfinite)
    have hrank := le_antisymm (hn.rank_le_of_same hm hfinite' hfinite)
      (hm.rank_le_of_same hn hfinite hfinite')
    exact units_inj.mp (le_antisymm (units_mono hrank.le) (units_mono hrank.ge))
  · have hfinite' : ¬ n.isFinite := fun h => hfinite (hm.isFinite_iff.mpr (hn.isFinite_iff.mp h))
    rw [isFinite_iff_ne, not_not] at hfinite hfinite'
    rw [hfinite, hfinite']

/-- A greater value `w` has no smaller size that is nearest to it than `v` has: rounding is
monotone, also into infinity. -/
theorem rank_le (hm : IsNearest v m) (hn : IsNearest w n) (h : v ≤ w) : m.rank ≤ n.rank := by
  by_contra! hlt
  have hfinite' : n.isFinite := decide_eq_true (hlt.trans_le m.rank_le)
  have hfinite : m.isFinite := hm.isFinite_iff.mpr (h.trans_lt (hn.isFinite_iff.mp hfinite'))
  -- The lesser value is in the middle of the two sizes or above it, the greater one or below it.
  have hlow := add_le_two_mul_of_abs_le (value_lt hlt) (hm.abs_le hfinite n hfinite')
  have hhigh := two_mul_le_add_of_abs_le (value_lt hlt) (hn.abs_le hfinite' m hfinite)
  obtain rfl : v = w := by linarith
  rw [hm.eq hn] at hlt
  exact lt_irrefl _ hlt

/-- The size zero is nearest to `v` exactly if `v` is no greater than half of the least positive
size, `2^-1074`. -/
theorem eq_zero_iff (hm : IsNearest v m) : m = zero ↔ v ≤ 1 / 2 ^ 1075 := by
  have hhalf : 1 / 2 ^ 1075 * (Binary64.unitsPerOne : ℚ) = 1 / 2 := by
    obtain ⟨e, he⟩ : ∃ e, 1074 = e := ⟨_, rfl⟩
    have he' : 1075 = e + 1 := by omega
    rw [Binary64.unitsPerOne_eq he, he', Nat.cast_pow, Nat.cast_ofNat, pow_succ]
    field_simp
  constructor
  · -- Zero and the least size are equally near to the half between them, and the tie goes to zero.
    rintro rfl
    let least : Magnitude := ⟨1, by decide⟩
    have hnear := hm.abs_le (by decide) least (by decide)
    have hmiddle := two_mul_le_add_of_abs_le (value_lt (by decide)) hnear
    have hzero : zero.units = 0 := by decide
    have hleast : least.units = 1 := by decide
    rw [value, value, hzero, hleast, Nat.cast_zero, zero_div, zero_add, Nat.cast_one,
      le_div_iff₀ unitsPerOne_pos] at hmiddle
    refine le_of_mul_le_mul_right ?_ unitsPerOne_pos
    rw [hhalf]
    linarith
  · intro hv
    have hdown : nearest 1 2 = zero := by decide
    have hzero : IsNearest (1 / 2 ^ 1075) zero :=
      hdown ▸ isNearest_nearest two_pos (by rw [hhalf, Nat.cast_one, Nat.cast_ofNat])
    exact units_inj.mp (Nat.le_zero.mp (units_mono (hm.rank_le hzero hv)))

end IsNearest

end Magnitude

end Sketch
