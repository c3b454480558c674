import Mathlib.Data.Rat.Floor
import Mathlib.Tactic.NormNum
import Sketch.Proofs.Nearest
import Sketch.Proofs.Upright

/-!
# A pixel is the floor of a coordinate

An encoding is a sign bit, 11 bits of an exponent and 52 bits of a fraction, and from these
`Binary64.decode?` takes the exact value that it stands for. `pixel_is_floor` shows that a
coordinate falls on the pixel at the floor of this value if that lies in `[-2^31, 2^31)`, and that
it is refused if not, or if the encoding stands for no value at all.

The value is the count of units of the number that is encoded, over `2^1074`
(`Binary64.decode?_eq`): a fraction with a positive exponent is behind a first bit, which makes it
the significand of a block of sizes, and one with the exponent zero is a size of the first block.
The floor of such a quotient is the quotient of integers that gives the pixel (`pixelOf_eq_ok_iff`).
-/

namespace Sketch

/-! ## The value of an encoding -/

namespace Binary64

/-- The 11 bits of the exponent in the encoding `bits`, behind the sign. -/
def exponentBits (bits : UInt64) : Nat := bits.toNat / 2 ^ 52 % 2 ^ 11

/-- The 52 bits of the fraction in the encoding `bits`, which are its last ones. -/
def fractionBits (bits : UInt64) : Nat := bits.toNat % 2 ^ 52

/-- The value of the encoding `bits` without its sign. A zero exponent stands for no implied first
bit. -/
def decodedSize (bits : UInt64) : ℚ :=
  if exponentBits bits = 0 then fractionBits bits / 2 ^ 1074
  else (2 ^ 52 + fractionBits bits) * 2 ^ ((exponentBits bits : ℤ) - 1075)

/-- The exact value of the encoding `bits`. There is none if all bits of its exponent are set, as
they are in infinities and NaNs. -/
def decode? (bits : UInt64) : Option ℚ :=
  if exponentBits bits = 2047 then none
  else some (if 2 ^ 63 ≤ bits.toNat then -decodedSize bits else decodedSize bits)

variable {bits : UInt64}

/-- The rank of a size is the exponent and the fraction of its encoding, behind each other. -/
theorem mod_signBit_eq (bits : UInt64) :
    bits.toNat % signBit = exponentBits bits * 2 ^ 52 + fractionBits bits := by
  simp only [signBit, exponentBits, fractionBits]
  omega

/-- The exponent and the fraction of the encoding give the value of the size `m` that is encoded. -/
theorem value_eq_decodedSize {m : Magnitude} (h : m.rank = bits.toNat % signBit) :
    m.value = decodedSize bits := by
  obtain ⟨e, he⟩ : ∃ e, 1074 = e := ⟨_, rfl⟩
  have he' : (1075 : ℤ) = e + 1 := by omega
  have hfraction : fractionBits bits < 2 ^ 52 := Nat.mod_lt _ (by decide)
  rw [mod_signBit_eq] at h
  rw [Magnitude.value, decodedSize, unitsPerOne_eq he, he, he', Nat.cast_pow, Nat.cast_ofNat]
  -- The first block of sizes has no implied bit, and the others do.
  split
  case isTrue hzero =>
    rw [hzero, Nat.zero_mul, Nat.zero_add] at h
    rw [Magnitude.units_of_lt (h ▸ hfraction), h]
  case isFalse hpos =>
    obtain ⟨block, fraction, hrank, hlt, hunits⟩ := Magnitude.exists_block (m := m) (by omega)
    have hblock : exponentBits bits = block + 1 := by omega
    have hsame : fractionBits bits = fraction := by omega
    rw [hunits, hblock, hsame]
    have hfirst : ((2 ^ 52 + fraction : ℕ) : ℚ) = 2 ^ 52 + fraction := by norm_cast
    rw [Nat.cast_mul, hfirst, Nat.cast_pow, Nat.cast_ofNat, Nat.cast_succ, add_sub_add_right_eq_sub,
      zpow_sub₀ two_ne_zero, zpow_natCast, zpow_natCast, mul_div_assoc]

/-- An encoding with all bits of the exponent set is that of an infinity or of a NaN, with no exact
value. -/
theorem units?_ofBits_eq_none (h : exponentBits bits = 2047) : (ofBits bits).units? = none := by
  have hlast : Magnitude.infinityRank = 2047 * 2 ^ 52 := rfl
  have hrank := mod_signBit_eq bits
  by_cases hle : bits.toNat % signBit ≤ Magnitude.infinityRank
  · have hinfinite : ¬ bits.toNat % signBit < Magnitude.infinityRank := by omega
    rw [ofBits, dif_pos hle, units?, if_neg (by simpa [Magnitude.isFinite] using hinfinite)]
  · rw [ofBits, dif_neg hle, units?]

/-- Every other encoding is that of a finite number of the encoded size `m`, with the sign of the
first bit. -/
theorem exists_ofBits_eq (h : exponentBits bits ≠ 2047) : ∃ m : Magnitude, m.isFinite ∧
    m.rank = bits.toNat % signBit ∧ ofBits bits = signed (signBit ≤ bits.toNat) m := by
  have hlast : Magnitude.infinityRank = 2047 * 2 ^ 52 := rfl
  have hrank := mod_signBit_eq bits
  have hfraction : fractionBits bits < 2 ^ 52 := Nat.mod_lt _ (by decide)
  have hexponent : exponentBits bits < 2 ^ 11 := Nat.mod_lt _ (by decide)
  have hfinite : bits.toNat % signBit < Magnitude.infinityRank := by omega
  exact ⟨⟨_, hfinite.le⟩, decide_eq_true hfinite, rfl, dif_pos hfinite.le⟩

/-- The value of the encoding `bits` is that of the number `ofBits bits`, where `unitsPerOne` units
are one. -/
theorem decode?_eq (bits : UInt64) :
    decode? bits = (ofBits bits).units?.map fun a : ℤ => (a : ℚ) / unitsPerOne := by
  unfold decode?
  split
  case isTrue hall => rw [units?_ofBits_eq_none hall, Option.map_none]
  case isFalse hsome =>
    obtain ⟨m, hfinite, hrank, hbits⟩ := exists_ofBits_eq hsome
    have hsign : 2 ^ 63 = signBit := rfl
    rw [hbits, units?, if_pos hfinite, Option.map_some, ← value_eq_decodedSize hrank,
      Magnitude.value, hsign]
    by_cases hnegative : signBit ≤ bits.toNat
    · simp [hnegative, neg_div]
    · simp [hnegative]

end Binary64

/-! ## The floor of a value -/

section Floor

open Binary64

variable {x y : Binary64} {p : Pixel}

/-- A number `x` falls on the pixel `p` at the floor of its units, and on no other. -/
theorem pixelOf_eq_ok_iff : pixelOf x = .ok p ↔
    ∃ a, x.units? = some a ∧ p.toInt = a / unitsPerOne := by
  refine ⟨exists_units_of_pixelOf, ?_⟩
  rintro ⟨a, ha, hp⟩
  have hlow : Int32.minValue.toInt ≤ p.toInt := Int32.le_toInt p
  have hhigh : p.toInt ≤ Int32.maxValue.toInt := Int.le_of_lt_add_one (Int32.toInt_lt p)
  rw [pixelOf, pixel?, floor?, ha, Option.map_some, Option.bind_some, ← hp,
    if_pos ⟨hlow, hhigh⟩, Int32.ofInt_toInt]

/-- The pixel `p` of the encoding `bits` is the floor of its value `decode? bits`. -/
theorem pixelOf_ofBits_eq_ok_iff {bits : UInt64} : pixelOf (.ofBits bits) = .ok p ↔
    ∃ v, decode? bits = some v ∧ p.toInt = ⌊v⌋ := by
  simp only [pixelOf_eq_ok_iff, decode?_eq, Option.map_eq_some_iff]
  constructor
  · rintro ⟨a, ha, hp⟩
    exact ⟨_, ⟨a, ha, rfl⟩, hp.trans (Rat.floor_intCast_div_natCast a _).symm⟩
  · rintro ⟨_, ⟨a, ha, rfl⟩, hp⟩
    exact ⟨a, ha, hp.trans (Rat.floor_intCast_div_natCast a _)⟩

/-- The floor of a value `v` is a 32-bit integer exactly if `v` is in their range, from `-2^31` on
and below `2^31`. -/
theorem exists_toInt_eq_floor_iff {v : ℚ} :
    (∃ p : Pixel, p.toInt = ⌊v⌋) ↔ -2 ^ 31 ≤ v ∧ v < 2 ^ 31 := by
  have hlow : (-2 ^ 31 : ℤ) ≤ ⌊v⌋ ↔ -2 ^ 31 ≤ v := by
    rw [Int.le_floor]
    norm_num
  have hhigh : ⌊v⌋ < (2 ^ 31 : ℤ) ↔ v < 2 ^ 31 := by
    rw [Int.floor_lt]
    norm_num
  rw [← hlow, ← hhigh]
  constructor
  · rintro ⟨p, hp⟩
    exact hp ▸ ⟨Int32.le_toInt p, Int32.toInt_lt p⟩
  · rintro ⟨hle, hlt⟩
    exact ⟨.ofInt ⌊v⌋, Int32.toInt_ofInt_of_le hle hlt⟩

/-- A coordinate `x` without a pixel is refused, with `x` itself as the reason, and no other one is.
-/
theorem pixelOf_eq_error_iff {fault : Fault} : pixelOf x = .error fault ↔
    fault = .outOfRange x ∧ ¬ ∃ p, pixelOf x = .ok p := by
  unfold pixelOf
  cases x.pixel? <;> simp [eq_comm]

/-- A coordinate falls on the pixel at the floor of its exact value if that is at least `-2^31` and
below `2^31`. Every other coordinate is refused, and with it those that have no value. So the
greater of two values does not have the lesser pixel, the two zeros have the same one, and an
integer that becomes a pixel is always one of 32 bits. -/
theorem pixel_is_floor :
    (∀ (bits : UInt64) (v : ℚ), decode? bits = some v → -2 ^ 31 ≤ v → v < 2 ^ 31 →
      ∃ p : Pixel, pixelOf (.ofBits bits) = .ok p ∧ p.toInt = ⌊v⌋) ∧
    (∀ bits : UInt64, (¬ ∃ v, decode? bits = some v ∧ -2 ^ 31 ≤ v ∧ v < 2 ^ 31) →
      pixelOf (.ofBits bits) = .error (.outOfRange (.ofBits bits))) ∧
    (∀ (bits bits' : UInt64) (v v' : ℚ) (p p' : Pixel), decode? bits = some v →
      decode? bits' = some v' → v ≤ v' → pixelOf (.ofBits bits) = .ok p →
      pixelOf (.ofBits bits') = .ok p' → p ≤ p') ∧
    pixelOf (.ofBits 0x8000000000000000) = pixelOf (.ofBits 0) ∧
    ∀ (x : Binary64) (p : Pixel), pixelOf x = .ok p → ∃ z, x.floor? = some z ∧ p = .ofInt z ∧
      Int32.minValue.toInt ≤ z ∧ z ≤ Int32.maxValue.toInt := by
  refine ⟨?_, ?_, ?_, ?_, ?_⟩
  · intro bits v hv hlow hhigh
    obtain ⟨p, hp⟩ := exists_toInt_eq_floor_iff.mpr ⟨hlow, hhigh⟩
    exact ⟨p, pixelOf_ofBits_eq_ok_iff.mpr ⟨v, hv, hp⟩, hp⟩
  · intro bits hout
    refine pixelOf_eq_error_iff.mpr ⟨rfl, ?_⟩
    rintro ⟨p, hp⟩
    obtain ⟨v, hv, hfloor⟩ := pixelOf_ofBits_eq_ok_iff.mp hp
    exact hout ⟨v, hv, exists_toInt_eq_floor_iff.mp ⟨p, hfloor⟩⟩
  · intro bits bits' v v' p p' hv hv' hle hp hp'
    -- The floor is monotone, so the pixels are in the order of the values.
    obtain ⟨w, hw, hfloor⟩ := pixelOf_ofBits_eq_ok_iff.mp hp
    obtain ⟨w', hw', hfloor'⟩ := pixelOf_ofBits_eq_ok_iff.mp hp'
    obtain rfl := Option.some.inj (hv.symm.trans hw)
    obtain rfl := Option.some.inj (hv'.symm.trans hw')
    rw [Int32.le_iff_toInt_le, hfloor, hfloor']
    exact Int.floor_le_floor hle
  · decide +kernel
  · intro x p hp
    obtain ⟨a, ha, hfloor⟩ := pixelOf_eq_ok_iff.mp hp
    refine ⟨p.toInt, ?_, (Int32.ofInt_toInt p).symm, Int32.le_toInt p,
      Int.le_of_lt_add_one (Int32.toInt_lt p)⟩
    rw [floor?, ha, Option.map_some, hfloor]

/-- The number nearest to 2147483647.999 has the last pixel, the first number below `-2^31` has
none, and the greatest number below zero has the pixel before that of zero. -/
theorem pixel_at_the_ends :
    let last : UInt64 := 0x41dfffffffffef9e
    let beyond : UInt64 := 0xc1e0000000000001
    let least : UInt64 := 0x8000000000000001
    (decode? last = some (4503599627368399 / 2 ^ 21) ∧
      ∃ p : Pixel, pixelOf (.ofBits last) = .ok p ∧ p.toInt = 2147483647) ∧
    (decode? beyond = some (-4503599627370497 / 2 ^ 21) ∧
      pixelOf (.ofBits beyond) = .error (.outOfRange (.ofBits beyond))) ∧
    decode? least = some (-(1 / 2 ^ 1074)) ∧
      ∃ p : Pixel, pixelOf (.ofBits least) = .ok p ∧ p.toInt = -1 := by
  intro last beyond least
  obtain ⟨hfloor, hrefused, -⟩ := pixel_is_floor
  have hfields : (exponentBits last = 1053 ∧ fractionBits last = 2 ^ 52 - 4194) ∧
      (exponentBits beyond = 1054 ∧ fractionBits beyond = 1) ∧
      exponentBits least = 0 ∧ fractionBits least = 1 := by decide
  obtain ⟨⟨hexponent, hfraction⟩, ⟨hexponent', hfraction'⟩, hexponent'', hfraction''⟩ := hfields
  have hsigns : ¬ 2 ^ 63 ≤ last.toNat ∧ 2 ^ 63 ≤ beyond.toNat ∧ 2 ^ 63 ≤ least.toNat := by decide
  -- The fields are decided on the words, and the quotients made of them are left to `norm_num`.
  have hlast : decode? last = some (4503599627368399 / 2 ^ 21) := by
    rw [decode?, decodedSize, hexponent, hfraction, if_neg hsigns.1]
    norm_num
  have hbeyond : decode? beyond = some (-4503599627370497 / 2 ^ 21) := by
    rw [decode?, decodedSize, hexponent', hfraction', if_pos hsigns.2.1]
    norm_num
  have hleast : decode? least = some (-(1 / 2 ^ 1074)) := by
    rw [decode?, decodedSize, hexponent'', hfraction'', if_pos hsigns.2.2]
    norm_num
  refine ⟨⟨hlast, ?_⟩, ⟨hbeyond, hrefused _ ?_⟩, hleast, ?_⟩
  · obtain ⟨p, hp, hvalue⟩ := hfloor last _ hlast (by norm_num) (by norm_num)
    refine ⟨p, hp, hvalue.trans ?_⟩
    norm_num
  · rintro ⟨v, hv, hlow, -⟩
    obtain rfl := Option.some.inj (hbeyond.symm.trans hv)
    norm_num at hlow
  · have hpos : (0 : ℚ) < 1 / 2 ^ 1074 := by positivity
    have hle : (1 : ℚ) / 2 ^ 1074 ≤ 1 := div_le_one_of_le₀ (one_le_pow₀ one_le_two) (by positivity)
    -- With the size as a variable, `linarith` does not compute the power.
    generalize (1 : ℚ) / 2 ^ 1074 = size at hpos hle hleast
    obtain ⟨p, hp, hvalue⟩ := hfloor least _ hleast (by linarith) (by linarith)
    refine ⟨p, hp, hvalue.trans (Int.floor_eq_iff.mpr ⟨?_, ?_⟩)⟩
    · rw [Int.cast_neg, Int.cast_one]
      linarith
    · rw [Int.cast_neg, Int.cast_one]
      linarith

end Floor

end Sketch
