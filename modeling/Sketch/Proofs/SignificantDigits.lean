import Mathlib.Algebra.Order.Field.Power
import Mathlib.Data.List.DropRight
import Mathlib.Tactic.FieldSimp
import Mathlib.Tactic.Linarith
import Sketch.Proofs.Nearest
import Sketch.Proofs.Printing
import Sketch.Proofs.Values

/-!
# Numbers are printed to significant digits

A finite number is printed to a count of significant digits. `Magnitude.isRounding_text` shows that
the text is read back (`Text.unsignedValue`) as a nearest one among the values of so many digits,
and `Binary64.isRounding_ofHalves` that halves of integers are printed so as well. The value is the
right one exactly if it has no more digits (`IsRounding.eq_iff`).

The digits start where those of the quotient do (`RoundedDecimal.leadingExponent_spec`). Below a
power of ten, the values of the given count of digits are the multiples of a smaller power, and what
is less has even fewer digits in front of it, so it suffices to round to a nearest multiple
(`RoundedDecimal.isRounding_of_multiples`). What is written is this integer, whichever place the
point has and however many zeros are left away (`RoundedDecimal.unsignedValue_text`).
-/

namespace Sketch

/-! ## Values of few digits -/

/-- The value `v` can be written with the given count of digits: it is an integer `k` of no more
`digits`, times a power of ten. -/
def HasDigits (digits : Nat) (v : ℚ) : Prop := ∃ k j : ℤ, |k| < 10 ^ digits ∧ v = k * 10 ^ j

/-- The value `r` is a nearest one to `v` among those of the given count of `digits`. -/
structure IsRounding (digits : Nat) (v r : ℚ) : Prop where
  hasDigits : HasDigits digits r
  nearest : ∀ w, HasDigits digits w → |r - v| ≤ |w - v|

section Rounding

variable {digits : Nat} {v r : ℚ}

/-- The opposite of a value `v` has as many digits as `v`. -/
theorem HasDigits.neg (h : HasDigits digits v) : HasDigits digits (-v) := by
  obtain ⟨k, j, hk, rfl⟩ := h
  exact ⟨-k, j, by rwa [abs_neg], by push_cast; ring⟩

/-- Zero can be written with any count of `digits`, even with none. -/
theorem hasDigits_zero (digits : Nat) : HasDigits digits 0 :=
  ⟨0, 0, by simp, by simp⟩

/-- A rounding `r` of `v` is `v` itself exactly if `v` has no more than the given count of digits.
-/
theorem IsRounding.eq_iff (h : IsRounding digits v r) : r = v ↔ HasDigits digits v := by
  constructor
  · rintro rfl
    exact h.hasDigits
  · intro hv
    have hnear := h.nearest v hv
    rw [sub_self, abs_zero] at hnear
    exact sub_eq_zero.mp (abs_nonpos_iff.mp hnear)

/-- The opposite of a rounding `r` of `v` is a rounding of the opposite of `v`. -/
theorem IsRounding.neg (h : IsRounding digits v r) : IsRounding digits (-v) (-r) := by
  refine ⟨h.hasDigits.neg, fun w hw => ?_⟩
  have hr : -r - -v = -(r - v) := by ring
  have hw' : w - -v = -(-w - v) := by ring
  rw [hr, hw', abs_neg, abs_neg]
  exact h.nearest (-w) hw.neg

/-- Zero is rounded to itself, for any count of `digits`. -/
theorem isRounding_zero (digits : Nat) : IsRounding digits 0 0 := by
  refine ⟨hasDigits_zero digits, fun w _ => ?_⟩
  rw [sub_self, abs_zero]
  exact abs_nonneg _

end Rounding

/-! ## The digits of a natural number -/

/-- A positive number `n` lies between the two powers of ten that its count of digits names. -/
theorem Text.length_ofNat_bounds {n : Nat} (h : 0 < n) :
    10 ^ ((ofNat n).length - 1) ≤ n ∧ n < 10 ^ (ofNat n).length := by
  have hlength : (ofNat n).length = (Nat.toDigits 10 n).length := List.length_map _
  have hpos : 0 < (Nat.toDigits 10 n).length := Nat.length_toDigits_pos
  rw [hlength]
  constructor
  · rcases Nat.eq_zero_or_pos ((Nat.toDigits 10 n).length - 1) with hone | hmore
    · rw [hone]
      exact h
    · by_contra! hlt
      have hle := (Nat.length_toDigits_le_iff (by decide) hmore).mpr hlt
      omega
  · exact (Nat.length_toDigits_le_iff (by decide) hpos).mp le_rfl

/-- A number `n` from `10 ^ k` on and below the next power of ten is written with `k + 1` digits. -/
theorem Text.length_ofNat {n k : Nat} (hlow : 10 ^ k ≤ n) (hhigh : n < 10 ^ (k + 1)) :
    (ofNat n).length = k + 1 := by
  have hpos : 0 < n := (Nat.pow_pos (by decide)).trans_le hlow
  obtain ⟨hlow', hhigh'⟩ := length_ofNat_bounds hpos
  have hle := (Nat.pow_lt_pow_iff_right (a := 10) (by decide)).mp (hlow.trans_lt hhigh')
  have hge := (Nat.pow_lt_pow_iff_right (a := 10) (by decide)).mp (hlow'.trans_lt hhigh)
  omega

/-! ## Rounding a quotient -/

namespace RoundedDecimal

section Quotient

variable {n d : Nat}

/-- The `leadingExponent` of a quotient `n / d` is that of the greatest power of ten not above it.
The bound `hsmall` holds for every positive size. -/
theorem leadingExponent_spec (hd : 0 < d) (hsmall : d ≤ n * Nat.pow 10 324) :
    (10 : ℚ) ^ leadingExponent n d ≤ n / d ∧ (n : ℚ) / d < 10 ^ (leadingExponent n d + 1) := by
  -- What is counted are the digits of the quotient times a power of ten.
  have hlength : ∀ m, (Nat.toDigits 10 m).length = (Text.ofNat m).length := fun m =>
    (List.length_map _).symm
  have hexponent : leadingExponent n d =
      (Text.ofNat (n * Nat.pow 10 324 / d)).length - 325 :=
    congrArg (fun length : Nat => (length : ℤ) - 325) (hlength _)
  obtain ⟨shift, hshift, hshift'⟩ : ∃ shift : Nat, 324 = shift ∧ (325 : ℤ) = shift + 1 :=
    ⟨_, rfl, rfl⟩
  simp only [hshift] at hsmall hexponent
  have hpos : 0 < n * Nat.pow 10 shift / d := Nat.div_pos hsmall hd
  obtain ⟨hlow, hhigh⟩ := Text.length_ofNat_bounds hpos
  have hcount : 1 ≤ (Text.ofNat (n * Nat.pow 10 shift / d)).length :=
    List.length_pos_iff.mpr (Text.ofNat_ne_nil _)
  -- From here on only the count of digits matters.
  generalize (Text.ofNat (n * Nat.pow 10 shift / d)).length = count at *
  rw [Nat.le_div_iff_mul_le hd] at hlow
  rw [Nat.div_lt_iff_lt_mul hd] at hhigh
  have hlow' : (10 : ℚ) ^ ((count : ℤ) - 1) * d ≤ n * 10 ^ (shift : ℤ) := by
    have hcast : (10 : ℚ) ^ (count - 1) * d ≤ n * 10 ^ shift := by exact_mod_cast hlow
    rwa [← zpow_natCast, ← zpow_natCast, Nat.cast_sub hcount, Nat.cast_one] at hcast
  have hhigh' : (n : ℚ) * 10 ^ (shift : ℤ) < 10 ^ (count : ℤ) * d := by
    have hcast : (n : ℚ) * 10 ^ shift < 10 ^ count * d := by exact_mod_cast hhigh
    rwa [← zpow_natCast, ← zpow_natCast] at hcast
  have hd' : (0 : ℚ) < d := Nat.cast_pos.mpr hd
  have hscale : (0 : ℚ) < 10 ^ (shift : ℤ) := by positivity
  have hten : (10 : ℚ) ≠ 0 := by norm_num
  have hleading : leadingExponent n d = (count : ℤ) - 1 - shift := by omega
  have hleading' : leadingExponent n d + 1 = (count : ℤ) - shift := by omega
  rw [hleading', hleading, zpow_sub₀ hten, zpow_sub₀ hten _ (shift : ℤ)]
  constructor
  · rwa [div_le_div_iff₀ hscale hd']
  · rwa [div_lt_div_iff₀ hd' hscale]

/-- The value of a decimal number `r` whose significand has the given count of `digits`, the first
of which stands before the point. -/
def value (digits : Nat) (r : RoundedDecimal) : ℚ :=
  r.significand * 10 ^ (r.exponent - (digits - 1 : Nat))

/-- The two integers that `ofQuotient` divides have the quotient `n / d` in units of `10 ^ place`,
for a `place` of either sign. -/
theorem scaled_quotient (n d : Nat) (place : ℤ) :
    ((n * Nat.pow 10 (-place).toNat : Nat) : ℚ) / (d * Nat.pow 10 place.toNat : Nat) =
      n / d / 10 ^ place := by
  have hup : ((Nat.pow 10 (-place).toNat : Nat) : ℚ) = 10 ^ (-place).toNat := Nat.cast_pow 10 _
  have hdown : ((Nat.pow 10 place.toNat : Nat) : ℚ) = 10 ^ place.toNat := Nat.cast_pow 10 _
  have hsplit : (10 : ℚ) ^ place * 10 ^ (-place).toNat = 10 ^ place.toNat := by
    rw [← zpow_natCast, ← zpow_natCast, ← zpow_add₀ (by norm_num)]
    congr 1
    omega
  rw [Nat.cast_mul, Nat.cast_mul, hup, hdown, ← hsplit]
  have hpos : (0 : ℚ) < 10 ^ place := by positivity
  field_simp

/-- What has no more digits (`hk`) than a power of ten below it, in front of a smaller power `j`, is
not above `10 ^ fewer` in front of the greater power `place`. -/
theorem mul_zpow_le_of_lt {fewer : Nat} {k : ℚ} {j place : ℤ} (hk : k ≤ 10 ^ (fewer + 1))
    (hlt : j < place) : k * 10 ^ j ≤ 10 ^ fewer * 10 ^ place := by
  calc
    k * 10 ^ j ≤ 10 ^ (fewer + 1) * 10 ^ j := mul_le_mul_of_nonneg_right hk (by positivity)
    _ = 10 ^ fewer * 10 ^ (j + 1) := by rw [zpow_add_one₀ (by norm_num), pow_succ]; ring
    _ ≤ 10 ^ fewer * 10 ^ place :=
      mul_le_mul_of_nonneg_left (zpow_le_zpow_right₀ (by norm_num) hlt) (by positivity)

/-- A multiple `k` of `10 ^ j` is a multiple of every smaller power `10 ^ place`, too. -/
theorem exists_multiple_of_le {k j place : ℤ} (hk : 0 ≤ k) (hle : place ≤ j) :
    ∃ n : Nat, (k : ℚ) * 10 ^ j = n * 10 ^ place := by
  obtain ⟨more, rfl⟩ := Int.le.dest hle
  obtain ⟨n, rfl⟩ := Int.eq_ofNat_of_zero_le hk
  refine ⟨n * 10 ^ more, ?_⟩
  rw [zpow_add₀ (by norm_num), zpow_natCast]
  push_cast
  ring

/-- If no multiple of `10 ^ place` is nearer (`hnear`) to a value `v` that has just `fewer + 1`
digits in front of that power, then no value of so many digits is. -/
theorem isRounding_of_multiples {fewer s : Nat} {v : ℚ} {place : ℤ}
    (hlow : 10 ^ fewer * 10 ^ place ≤ v) (hs : HasDigits (fewer + 1) (s * 10 ^ place))
    (hnear : ∀ j : Nat, |(s : ℚ) * 10 ^ place - v| ≤ |(j : ℚ) * 10 ^ place - v|) :
    IsRounding (fewer + 1) v (s * 10 ^ place) := by
  have hv : 0 ≤ v := le_trans (by positivity) hlow
  refine ⟨hs, ?_⟩
  rintro w ⟨k, j, hk, rfl⟩
  rcases le_or_gt k 0 with hneg | hkpos
  · -- Zero is at least as near as what is not positive.
    have hw : (k : ℚ) * 10 ^ j ≤ 0 :=
      mul_nonpos_of_nonpos_of_nonneg (by exact_mod_cast hneg) (by positivity)
    have hzero := hnear 0
    rw [Nat.cast_zero, zero_mul, abs_of_nonpos (by linarith : 0 - v ≤ 0)] at hzero
    rw [abs_of_nonpos (by linarith : (k : ℚ) * 10 ^ j - v ≤ 0)]
    linarith
  rcases le_or_gt place j with hle | hlt
  · obtain ⟨n, hn⟩ := exists_multiple_of_le hkpos.le hle
    rw [hn]
    exact hnear n
  · -- The least multiple of just so many digits lies between such a value and the given one.
    have hkdigits : (k : ℚ) ≤ 10 ^ (fewer + 1) := by
      have hlt : (|k| : ℚ) < 10 ^ (fewer + 1) := by exact_mod_cast hk
      exact (le_abs_self _).trans hlt.le
    have hwlow := mul_zpow_le_of_lt hkdigits hlt
    have hleast := hnear (10 ^ fewer)
    rw [Nat.cast_pow, Nat.cast_ofNat,
      abs_of_nonpos (by linarith : (10 : ℚ) ^ fewer * 10 ^ place - v ≤ 0)] at hleast
    rw [abs_of_nonpos (by linarith : (k : ℚ) * 10 ^ j - v ≤ 0)]
    linarith

/-- A quotient between the integers `low` and `high` is rounded to one between them. -/
theorem roundHalfEven_mem {num den low high : Nat} (hden : 0 < den) (hlow : (low : ℚ) ≤ num / den)
    (hhigh : (num : ℚ) / den < high) :
    low ≤ roundHalfEven num den ∧ roundHalfEven num den ≤ high := by
  have hround := abs_le.mp (abs_roundHalfEven_sub_le num hden)
  generalize roundHalfEven num den = s at *
  constructor
  · by_contra! hlt
    have hcast : (s : ℚ) + 1 ≤ low := by exact_mod_cast hlt
    linarith
  · by_contra! hlt
    have hcast : (high : ℚ) + 1 ≤ s := by exact_mod_cast hlt
    linarith

/-- A value `v` whose digits start at `exponent` is rounded to the given count of `digits`. Where
the rounding reaches the next power of ten, the exponent moves up instead. -/
theorem rounded_of_bounds {digits num den : Nat} {v : ℚ} {exponent place : ℤ} (hdigits : 0 < digits)
    (hplace : exponent - (digits - 1 : Nat) = place) (hlow : (10 : ℚ) ^ exponent ≤ v)
    (hhigh : v < 10 ^ (exponent + 1)) (hden : 0 < den) (hv : (num : ℚ) / den = v / 10 ^ place) :
    let r : RoundedDecimal := if roundHalfEven num den = Nat.pow 10 digits then
      ⟨Nat.pow 10 (digits - 1), exponent + 1⟩ else ⟨roundHalfEven num den, exponent⟩
    10 ^ (digits - 1) ≤ r.significand ∧ r.significand < 10 ^ digits ∧
      IsRounding digits v (r.value digits) := by
  obtain ⟨fewer, rfl⟩ : ∃ fewer, digits = fewer + 1 := ⟨digits - 1, by omega⟩
  rw [Nat.add_sub_cancel] at *
  have hten : (10 : ℚ) ≠ 0 := by norm_num
  have hpos : (0 : ℚ) < 10 ^ place := by positivity
  obtain rfl : exponent = fewer + place := by omega
  rw [zpow_add₀ hten, zpow_natCast] at hlow
  rw [add_right_comm, zpow_add₀ hten, ← Nat.cast_succ, zpow_natCast] at hhigh
  -- Rounding to an integer is rounding to a multiple of the last place.
  have hnear : ∀ j : Nat,
      |(roundHalfEven num den : ℚ) * 10 ^ place - v| ≤ |(j : ℚ) * 10 ^ place - v| := by
    intro j
    rw [abs_mul_sub hpos, abs_mul_sub hpos, ← hv]
    exact mul_le_mul_of_nonneg_right (abs_roundHalfEven_sub_le_abs num hden j) hpos.le
  have hlow' : ((10 ^ fewer : Nat) : ℚ) ≤ num / den := by
    rw [hv, le_div_iff₀ hpos]
    exact_mod_cast hlow
  have hhigh' : (num : ℚ) / den < (10 ^ (fewer + 1) : Nat) := by
    rw [hv, div_lt_iff₀ hpos]
    exact_mod_cast hhigh
  obtain ⟨hslow, hshigh⟩ := roundHalfEven_mem hden hlow' hhigh'
  generalize roundHalfEven num den = s at *
  have hpow : ∀ k, Nat.pow 10 k = 10 ^ k := fun _ => rfl
  simp only [hpow]
  -- The rounded digits are as many as asked for, or one more after rounding up.
  rcases hshigh.lt_or_eq with hlt | rfl
  · have hvalue : value (fewer + 1) ⟨s, fewer + place⟩ = s * 10 ^ place := by
      rw [value, Nat.add_sub_cancel, add_sub_cancel_left]
    rw [if_neg hlt.ne, hvalue]
    have hs : HasDigits (fewer + 1) ((s : ℚ) * 10 ^ place) :=
      ⟨s, place, by rw [Nat.abs_cast]; exact_mod_cast hlt, by push_cast; rfl⟩
    exact ⟨hslow, hlt, isRounding_of_multiples hlow hs hnear⟩
  · -- The power of ten has a single digit.
    have hvalue : value (fewer + 1) ⟨10 ^ fewer, fewer + place + 1⟩ =
        (10 ^ (fewer + 1) : Nat) * 10 ^ place := by
      rw [value, Nat.add_sub_cancel, add_assoc, add_sub_cancel_left, zpow_add_one₀ hten]
      push_cast
      ring
    have hlt : 10 ^ fewer < 10 ^ (fewer + 1) :=
      Nat.pow_lt_pow_right (by decide) (Nat.lt_succ_self _)
    rw [if_pos rfl, hvalue]
    have hs : HasDigits (fewer + 1) (((10 ^ (fewer + 1) : Nat) : ℚ) * 10 ^ place) := by
      refine ⟨(10 ^ fewer : Nat), place + 1, ?_, ?_⟩
      · rw [Nat.abs_cast]
        exact_mod_cast hlt
      · rw [zpow_add_one₀ hten]
        push_cast
        ring
    exact ⟨le_rfl, hlt, isRounding_of_multiples hlow hs hnear⟩

/-- The rounding `ofQuotient` of `n / d` gives a significand of just so many `digits`, and its value
is an `IsRounding` of the quotient. -/
theorem ofQuotient_spec {digits : Nat} (hdigits : 0 < digits) (hd : 0 < d)
    (hsmall : d ≤ n * Nat.pow 10 324) :
    10 ^ (digits - 1) ≤ (ofQuotient digits n d).significand ∧
      (ofQuotient digits n d).significand < 10 ^ digits ∧
      IsRounding digits (n / d) ((ofQuotient digits n d).value digits) := by
  obtain ⟨hlow, hhigh⟩ := leadingExponent_spec hd hsmall
  -- The exponent is made a variable first, so that it is not evaluated.
  obtain ⟨exponent, hexponent⟩ : ∃ exponent, leadingExponent n d = exponent := ⟨_, rfl⟩
  rw [hexponent] at hlow hhigh
  rw [ofQuotient, hexponent]
  exact rounded_of_bounds hdigits rfl hlow hhigh (Nat.mul_pos hd (Nat.pow_pos (by decide)))
    (scaled_quotient n d _)

end Quotient

end RoundedDecimal

/-! ## Reading back what was printed -/

namespace Text

/-- The letter `e` in front of an exponent, which stands nowhere else in a finite number. -/
def exponentLetter : Byte := 101

/-- The integer that an exponent is, behind its letter: a sign, and digits behind it. -/
def exponentValue : Text → ℤ
  | [] => 0
  | sign :: digits => if sign = Byte.minus then -digitsValue digits else digitsValue digits

/-- The value of a printed number `t` without a sign: its `fixedValue`, times the power of ten that
stands behind `exponentLetter`, if any. -/
def unsignedValue (t : Text) : ℚ :=
  fixedValue (t.beforeFirst exponentLetter) * 10 ^ exponentValue (t.afterFirst exponentLetter)

/-- The value of a printed number as a reader finds it: a minus sign in front counts, and the rest
is an `unsignedValue`. -/
def decimalValue : Text → ℚ
  | [] => 0
  | b :: t => if b = Byte.minus then -unsignedValue t else unsignedValue (b :: t)

/-- The value of a number `t` without an exponent is its `fixedValue`. -/
theorem unsignedValue_fixed {t : Text} (h : exponentLetter ∉ t) :
    unsignedValue t = fixedValue t := by
  obtain ⟨hbefore, hafter⟩ := parts_of_notMem h
  rw [unsignedValue, hbefore, hafter]
  exact mul_one _

/-- The value of a number `t` with an `exponent` behind it is its `fixedValue` times that power of
ten. -/
theorem unsignedValue_exponent {t : Text} (h : exponentLetter ∉ t) (exponent : Text) :
    unsignedValue (t ++ exponentLetter :: exponent) =
      fixedValue t * 10 ^ exponentValue exponent := by
  obtain ⟨hbefore, hafter⟩ := parts_append_cons h exponent
  rw [unsignedValue, hbefore, hafter]

end Text

namespace RoundedDecimal

open Text

/-- The value of `whole` with the `fraction` of `digits` is that of all the digits, also of the
zeros that `fraction` leaves away. -/
theorem fixedValue_fraction {whole : Text} (h : Byte.dot ∉ whole) (digits : Text) :
    fixedValue (whole ++ fraction digits) =
      digitsValue (whole ++ digits) / 10 ^ digits.length := by
  obtain ⟨kept, k, hfraction, rfl⟩ : ∃ kept k,
      fraction digits = (if kept.isEmpty then [] else Byte.dot :: kept) ∧
        digits = kept ++ List.replicate k Byte.digitZero := by
    have hzeros : digits.rtakeWhile (· == Byte.digitZero) =
        List.replicate (digits.rtakeWhile (· == Byte.digitZero)).length Byte.digitZero :=
      List.eq_replicate_of_mem fun b hb => by simpa using List.mem_rtakeWhile_imp hb
    refine ⟨digits.rdropWhile (· == Byte.digitZero),
      (digits.rtakeWhile (· == Byte.digitZero)).length, rfl, ?_⟩
    rw [← hzeros, List.rdropWhile_append_rtakeWhile]
  -- Each zero left away stands for a factor of ten on both sides of the quotient.
  have hpos : (10 : ℚ) ^ k ≠ 0 := by positivity
  rw [hfraction, ← List.append_assoc, digitsValue_append_zeros, List.length_append,
    List.length_replicate, Nat.cast_mul, Nat.cast_pow, Nat.cast_ofNat, pow_add,
    mul_div_mul_right _ _ hpos]
  cases kept with
  | nil => simp [fixedValue_digits h]
  | cons b kept => exact fixedValue_point h (b :: kept)

/-- An exponent `e` that `exponentMark` prints reads back: behind the letter stands a text with that
`exponentValue`. -/
theorem exists_exponentMark (e : ℤ) :
    ∃ t, exponentMark e = exponentLetter :: t ∧ exponentValue t = e := by
  let padding : Text := if (Text.ofNat e.natAbs).length < 2 then [Byte.digitZero] else []
  -- An exponent is printed with two digits at least, and zeros in front do not change its value.
  have hpadding : ∃ k, padding = List.replicate k Byte.digitZero := by
    simp only [padding]
    split
    · exact ⟨1, rfl⟩
    · exact ⟨0, rfl⟩
  obtain ⟨k, hk⟩ := hpadding
  have hvalue : digitsValue (padding ++ Text.ofNat e.natAbs) = e.natAbs := by
    rw [hk, digitsValue_zeros, digitsValue_ofNat]
  have hmark : exponentMark e = exponentLetter ::
      (ascii (if e < 0 then "-" else "+") ++ (padding ++ Text.ofNat e.natAbs)) := by
    rw [← List.append_assoc]
    rfl
  refine ⟨_, hmark, ?_⟩
  by_cases hneg : e < 0
  · have hminus : ascii (if e < 0 then "-" else "+") = [Byte.minus] := by rw [if_pos hneg]; rfl
    rw [hminus, List.singleton_append, exponentValue, if_pos rfl, hvalue]
    omega
  · have hplus : ascii (if e < 0 then "-" else "+") = [43] := by rw [if_neg hneg]; rfl
    rw [hplus, List.singleton_append, exponentValue, if_neg (by decide), hvalue]
    omega

section Printed

variable {whole digits : Text} (hwhole : IsDigits whole) (hdigits : ∀ b ∈ digits, b.isDigit)
include hwhole hdigits

/-- The letter of an exponent is not among the digits `whole` with a `fraction`, so the first such
letter starts the exponent. -/
theorem exponentLetter_notMem : exponentLetter ∉ whole ++ fraction digits :=
  List.not_mem_append (hwhole.notMem rfl) ((isFraction_fraction hdigits).notMem rfl (by decide))

/-- The digits `whole` with the `fraction` of `digits` read back as all digits, with the point among
them. -/
theorem unsignedValue_fraction : unsignedValue (whole ++ fraction digits) =
    digitsValue (whole ++ digits) / 10 ^ digits.length := by
  rw [unsignedValue_fixed (exponentLetter_notMem hwhole hdigits),
    fixedValue_fraction (hwhole.notMem rfl)]

/-- The digits `whole` with a `fraction` and `exponentMark e` behind them read back as all digits,
with the point moved by `e`. -/
theorem unsignedValue_exponentMark (e : ℤ) :
    unsignedValue (whole ++ fraction digits ++ exponentMark e) =
      digitsValue (whole ++ digits) / 10 ^ digits.length * 10 ^ e := by
  obtain ⟨t, ht, hexponent⟩ := exists_exponentMark e
  rw [ht, unsignedValue_exponent (exponentLetter_notMem hwhole hdigits), hexponent,
    fixedValue_fraction (hwhole.notMem rfl)]

end Printed

/-- The `k` zeros in front of `digits` and the digits themselves are all digits. -/
theorem isDigit_of_mem_zeros_append {digits : Text} (h : ∀ b ∈ digits, b.isDigit) (k : Nat) :
    ∀ b ∈ List.replicate k Byte.digitZero ++ digits, b.isDigit := by
  intro b hb
  rcases List.mem_append.mp hb with hzero | hdigit
  · rw [List.eq_of_mem_replicate hzero]
    rfl
  · exact h b hdigit

/-- A division of `v` by a power of ten is a multiplication by the power with the opposite exponent
`e`. -/
theorem div_ten_pow (v : ℚ) {k : Nat} {e : ℤ} (h : e = -k) : v / 10 ^ k = v * 10 ^ e := by
  rw [h, zpow_neg, zpow_natCast, div_eq_mul_inv]

/-- The text of a decimal number `d` whose significand has `style.digits` digits reads back as its
value, wherever the point is put. -/
theorem unsignedValue_text {style : NumeralStyle} {d : RoundedDecimal} (hdigits : 0 < style.digits)
    (hlow : 10 ^ (style.digits - 1) ≤ d.significand) (hhigh : d.significand < 10 ^ style.digits) :
    unsignedValue (d.text style) = d.value style.digits := by
  obtain ⟨fewer, hfewer⟩ : ∃ fewer, style.digits = fewer + 1 := ⟨style.digits - 1, by omega⟩
  rw [hfewer, Nat.add_sub_cancel] at hlow
  rw [hfewer] at hhigh
  have hlength : (ofNat d.significand).length = fewer + 1 := length_ofNat hlow hhigh
  have hall := isDigits_ofNat d.significand
  have hdrop : ∀ k, ∀ b ∈ (ofNat d.significand).drop k, b.isDigit :=
    fun k b hb => hall.isDigit b (List.mem_of_mem_drop hb)
  unfold text value
  simp only [hfewer, Nat.add_sub_cancel]
  split
  case isTrue =>
    -- The point is behind the first digit.
    rw [unsignedValue_exponentMark (hall.take 0) (hdrop 1), List.take_append_drop,
      digitsValue_ofNat, List.length_drop, hlength, Nat.add_sub_cancel, div_ten_pow _ rfl,
      mul_assoc, ← zpow_add₀ (by norm_num), neg_add_eq_sub]
  case isFalse hrange =>
    rw [not_or, not_lt, not_le] at hrange
    split
    case isTrue =>
      -- The point is in front of all digits, with zeros between.
      have hzero : ascii "0" = List.replicate 1 Byte.digitZero := rfl
      rw [unsignedValue_fraction isDigits_zero (isDigit_of_mem_zeros_append hall.isDigit _), hzero,
        digitsValue_zeros, digitsValue_zeros, digitsValue_ofNat, List.length_append,
        List.length_replicate, hlength]
      exact div_ten_pow _ (by omega)
    case isFalse =>
      -- The point is behind as many digits as the exponent says.
      rw [unsignedValue_fraction (hall.take _) (hdrop _), List.take_append_drop, digitsValue_ofNat,
        List.length_drop, hlength]
      exact div_ten_pow _ (by omega)

end RoundedDecimal

/-- The text of a finite size `m` reads back as the value of `m`, rounded to `style.digits` digits.
-/
theorem Magnitude.isRounding_text {style : NumeralStyle} (hdigits : 0 < style.digits)
    {m : Magnitude} (h : m.isFinite) :
    IsRounding style.digits m.value (Text.unsignedValue (m.text style)) := by
  unfold text
  rw [if_neg (by simp [h])]
  by_cases hzero : m.units = 0
  · have htext : Text.unsignedValue (ascii "0") = 0 := by
      rw [Text.unsignedValue_fixed (by decide), Text.fixedValue_digits (by decide)]
      rfl
    rw [if_pos hzero, htext, value, hzero, Nat.cast_zero, zero_div]
    exact isRounding_zero _
  · -- The least positive size is above the `10^-324` that the leading exponent is counted from.
    have hsmall : Binary64.unitsPerOne ≤ Nat.pow 10 324 := by decide +kernel
    have hunits : Binary64.unitsPerOne ≤ m.units * Nat.pow 10 324 :=
      hsmall.trans (Nat.le_mul_of_pos_left _ (Nat.pos_iff_ne_zero.mpr hzero))
    have hone : 0 < Binary64.unitsPerOne := by exact_mod_cast unitsPerOne_pos
    obtain ⟨hlow, hhigh, hround⟩ := RoundedDecimal.ofQuotient_spec hdigits hone hunits
    rw [if_neg hzero, RoundedDecimal.unsignedValue_text hdigits hlow hhigh]
    exact hround

namespace Binary64

/-- The text of a finite number reads back, with its sign, as the value of the number rounded to six
digits. -/
theorem isRounding_text (negative : Bool) {m : Magnitude} (h : m.isFinite) :
    IsRounding 6 (if negative then -m.value else m.value)
      (Text.decimalValue (signed negative m).text) := by
  have hround : IsRounding 6 m.value (Text.unsignedValue (m.text .standard)) :=
    Magnitude.isRounding_text (by decide : 0 < NumeralStyle.standard.digits) h
  cases negative with
  | true => exact hround.neg
  | false =>
    -- A number without a sign starts with a digit.
    obtain ⟨whole, fraction, exponent, hwhole, -, -, htext⟩ := m.exists_text_eq .standard h
    obtain ⟨b, digits, rfl⟩ := List.exists_cons_of_ne_nil hwhole.ne_nil
    have hb : b ≠ Byte.minus := by
      rintro rfl
      exact absurd (hwhole.isDigit _ List.mem_cons_self) (by decide)
    have hvalue : Text.decimalValue (signed false m).text =
        Text.unsignedValue (m.text .standard) := by
      rw [text, htext]
      exact if_neg hb
    rw [hvalue]
    exact hround

/-- Half of an integer `z` of at most 53 bits is held by `ofHalves` exactly, with the sign of `z`.
-/
theorem ofHalves_eq {z : ℤ} (h : z.natAbs < 2 ^ 53) : ∃ m : Magnitude, m.isFinite ∧
    m.value = (z.natAbs : ℚ) / 2 ∧ ofHalves z = signed (z < 0) m := by
  obtain ⟨e, he⟩ : ∃ e, 1074 = e + 1 := ⟨_, rfl⟩
  have hone : unitsPerOne = 2 ^ e * 2 := by rw [unitsPerOne_eq he, Nat.pow_succ]
  -- Fewer than `2^53` halves fit into a significand, so nothing is rounded.
  obtain ⟨hfinite, hunits⟩ := Magnitude.units_nearest h (e := e) (by omega) (by omega)
  have hstep : (0 : ℤ) < (2 ^ e : Nat) := Int.natCast_pos.mpr (Nat.two_pow_pos e)
  have hsign : (z * (2 ^ e : Nat) < 0) = (z < 0) :=
    propext ⟨fun hneg => neg_of_mul_neg_left hneg hstep.le,
      fun hneg => Int.mul_neg_of_neg_of_pos hneg hstep⟩
  refine ⟨.nearest (z.natAbs * 2 ^ e) 1, hfinite, ?_, ?_⟩
  · have hpos : (2 : ℚ) ^ e ≠ 0 := by positivity
    rw [Magnitude.value, hunits, hone]
    push_cast
    field_simp
  · rw [ofHalves, hone, Nat.mul_div_cancel _ two_pos, ofUnits, Int.natAbs_mul, Int.natAbs_natCast]
    simp only [hsign]

/-- Half of an integer `z` is printed as a number that reads back as `z / 2`, rounded to six digits.
-/
theorem isRounding_ofHalves {z : ℤ} (h : z.natAbs < 2 ^ 53) :
    IsPrintedNumber (ofHalves z).text ∧
      IsRounding 6 (z / 2) (Text.decimalValue (ofHalves z).text) := by
  obtain ⟨m, hfinite, hvalue, hz⟩ := ofHalves_eq h
  have hprinted : (signed (z < 0) m).isFinite := by
    rw [isFinite, units?, if_pos hfinite]
    rfl
  rw [hz]
  refine ⟨isPrintedNumber_text hprinted, ?_⟩
  have hround := isRounding_text (z < 0) hfinite
  rw [hvalue] at hround
  -- The size of `z / 2` is half of `|z|`, and its sign is that of `z`.
  by_cases hneg : z < 0
  · have habs : -((z.natAbs : ℚ) / 2) = z / 2 := by
      rw [Nat.cast_natAbs, abs_of_neg hneg]
      push_cast
      ring
    rwa [if_pos (decide_eq_true hneg), habs] at hround
  · have habs : ((z.natAbs : ℚ) / 2) = z / 2 := by
      rw [Nat.cast_natAbs, abs_of_nonneg (not_lt.mp hneg)]
    rwa [if_neg (by simpa using hneg), habs] at hround

end Binary64

end Sketch
