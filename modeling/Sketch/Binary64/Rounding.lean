import Sketch.Binary64

/-!
# Rounding to binary64

Exact results are rounded to the nearest binary64 number, and to the one with the even last bit if
two are equally near. `roundHalfEven` rounds a quotient to an integer in that way: it moves it by at
most one half (`roundHalfEven_within`), and a tie goes to the even integer (`roundHalfEven_even`).
`Magnitude.nearest` rounds a quotient of units to a size. Sums are the exact sums, rounded once.
-/

namespace Sketch

/-- The integer nearest to the quotient `numerator / denominator`, the even one if two integers are
equally near. -/
def roundHalfEven (numerator denominator : Nat) : Nat :=
  let quotient := numerator / denominator
  let twice := 2 * (numerator % denominator)
  if twice < denominator ∨ (twice = denominator ∧ quotient % 2 = 0) then quotient
  else quotient + 1

/-- The rounded quotient `roundHalfEven n d` is the whole quotient `n / d` or the integer after it.
-/
theorem roundHalfEven_eq_or (n d : Nat) :
    roundHalfEven n d = n / d ∨ roundHalfEven n d = n / d + 1 := by
  simp only [roundHalfEven]
  split
  · exact Or.inl rfl
  · exact Or.inr rfl

/-- Rounding by `roundHalfEven` moves the quotient of `n` by a positive `d` by at most one half, up
or down. Both sides are multiplied by `2 * d`. -/
theorem roundHalfEven_within (n d : Nat) (h : 0 < d) :
    2 * (d * roundHalfEven n d) ≤ 2 * n + d ∧ 2 * n ≤ 2 * (d * roundHalfEven n d) + d := by
  have hn := Nat.div_add_mod n d
  have hr := Nat.mod_lt n h
  simp only [roundHalfEven]
  split
  · omega
  · rw [Nat.mul_succ]
    omega

/-- Where `roundHalfEven` moves the quotient of `n` by `d` by exactly one half, as `tie` says, it
lands on the even integer. -/
theorem roundHalfEven_even (n d : Nat) (h : 0 < d)
    (tie : 2 * (d * roundHalfEven n d) = 2 * n + d ∨ 2 * n = 2 * (d * roundHalfEven n d) + d) :
    roundHalfEven n d % 2 = 0 := by
  have hn := Nat.div_add_mod n d
  have hr := Nat.mod_lt n h
  simp only [roundHalfEven] at tie ⊢
  split at tie
  · rw [if_pos ‹_›]
    omega
  · rw [if_neg ‹_›]
    rw [Nat.mul_succ] at tie
    omega

/-- A whole quotient is kept: `roundHalfEven` takes the quotient of `d * q` by a positive `d` to
`q`. -/
theorem roundHalfEven_mul (q d : Nat) (h : 0 < d) : roundHalfEven (d * q) d = q := by
  simp [roundHalfEven, h]

namespace Magnitude

/-- The size nearest to `numerator / denominator` units, the one with the even last bit if two are
equally near, and infinity from half a step above the greatest finite size on. A quotient of more
than 53 bits is rounded to a multiple of the power of two that leaves 53; the multiple and that
power's exponent add up to the rank, also where rounding reaches the next power. -/
def nearest (numerator denominator : Nat) : Magnitude :=
  let shift := (numerator / denominator).log2 - 52
  ofRank (shift * blockSize + roundHalfEven numerator (denominator <<< shift))

/-- A size `m` is `nearest` to itself, also if its units are written as a quotient with any positive
denominator `d`. -/
theorem nearest_units_mul (m : Magnitude) (d : Nat) (h : 0 < d) : nearest (m.units * d) d = m := by
  obtain ⟨rank, rank_le⟩ := m
  have hsize : blockSize = 2 ^ 52 := rfl
  simp only [nearest, ofRank, mk.injEq, Nat.mul_div_cancel _ h]
  simp only [units, Nat.shiftLeft_eq, hsize]
  split
  · have hlog : rank.log2 - 52 = 0 := by
      rcases Nat.eq_zero_or_pos rank with rfl | hpos
      · rfl
      · have := (Nat.log2_lt (Nat.pos_iff_ne_zero.mp hpos)).mpr ‹rank < 2 ^ 52›
        omega
    rw [hlog, Nat.pow_zero, Nat.mul_one, Nat.mul_comm rank, roundHalfEven_mul _ _ h, Nat.zero_mul,
      Nat.zero_add, Nat.min_eq_left rank_le]
  · -- The significand has 53 bits, so the shift that is found is the shift that was applied.
    have hfraction : rank % 2 ^ 52 < 2 ^ 52 := Nat.mod_lt _ (by decide)
    have hrank := Nat.div_add_mod rank (2 ^ 52)
    have hblock : 1 ≤ rank / 2 ^ 52 := by omega
    generalize rank / 2 ^ 52 = block at *
    generalize rank % 2 ^ 52 = fraction at *
    have hpos : 0 < 2 ^ (block - 1) := Nat.two_pow_pos _
    have hlog : ((2 ^ 52 + fraction) * 2 ^ (block - 1)).log2 = 52 + (block - 1) := by
      rw [Nat.log2_eq_iff (Nat.pos_iff_ne_zero.mp (Nat.mul_pos (by omega) hpos))]
      constructor
      · rw [Nat.pow_add]
        exact Nat.mul_le_mul_right _ (Nat.le_add_right _ _)
      · rw [Nat.add_right_comm, Nat.pow_add]
        exact Nat.mul_lt_mul_of_pos_right (by omega) hpos
    have hround : roundHalfEven ((2 ^ 52 + fraction) * 2 ^ (block - 1) * d)
        (d * 2 ^ (block - 1)) = 2 ^ 52 + fraction := by
      rw [Nat.mul_assoc, Nat.mul_comm (2 ^ 52 + fraction), Nat.mul_comm (2 ^ (block - 1)) d]
      exact roundHalfEven_mul _ _ (Nat.mul_pos h hpos)
    rw [hlog, Nat.add_sub_cancel_left, hround, ← hrank]
    rw [infinityRank, hsize] at rank_le ⊢
    omega

/-- A size `m` is `nearest` to its own number of `units`, so that rounding an exact size changes
nothing. -/
theorem nearest_units (m : Magnitude) : nearest m.units 1 = m := by
  simpa using nearest_units_mul m 1 Nat.one_pos

end Magnitude

namespace Binary64

/-- The number nearest to `z` units of `2^-1074`, with the sign of `z`. No unit at all is positive
zero. -/
def ofUnits (z : Int) : Binary64 := signed (z < 0) (.nearest z.natAbs 1)

/-- The number nearest to the integer `z`, which is `z * unitsPerOne` units. -/
def ofInt (z : Int) : Binary64 := ofUnits (z * unitsPerOne)

/-- The number nearest to half the integer `z`, which is an exact number of units. -/
def ofHalves (z : Int) : Binary64 := ofUnits (z * (unitsPerOne / 2 : Nat))

/-- The number to add so that another is taken away: the one with the other sign. What is not a
number is left as it is, for a difference keeps the sign of such an operand. -/
def neg : Binary64 → Binary64
  | notNumber negative => notNumber negative
  | signed negative m => signed (!negative) m

/-- The exact sum, rounded. A sum of zero is positive unless both terms are negative; an infinite
term outweighs a finite one. Opposite infinities have no sum, and what comes of them is the negative
value that is not a number. A term that is not a number is the sum, and the first such one if both
are. -/
def add : Binary64 → Binary64 → Binary64
  | signed s m, signed t n =>
    match (signed s m).units?, (signed t n).units? with
    | some a, some b => if a + b = 0 then signed (s && t) .zero else ofUnits (a + b)
    | some _, none => signed t n
    | none, some _ => signed s m
    | none, none => if s = t then signed s m else notNumber true
  | notNumber negative, _ | signed _ _, notNumber negative => notNumber negative

/-- The exact difference, rounded once: the sum of `x` and `neg y`. -/
def sub (x y : Binary64) : Binary64 := add x (neg y)

/-- The greatest integer not above a finite number `x`, found by dividing its `units?` by
`unitsPerOne`. -/
def floor? (x : Binary64) : Option Int := x.units?.map (· / (unitsPerOne : Int))

end Binary64

end Sketch
