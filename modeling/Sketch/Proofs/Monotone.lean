import Sketch.Proofs.Exactness

/-!
# Rounding keeps the order

The sizes of numbers are listed in increasing order (`Magnitude.units_mono`), and a greater quotient
of units is not rounded to a smaller size (`Magnitude.rank_nearest_mono`). So the exact values of
results are in the order of what was rounded (`Binary64.units?_ofUnits_mono`). A number is not
moved by rounding, and a rounded count is never on the other side of a number
(`Binary64.le_of_le_units`, `Binary64.le_of_units_le`). Sums come under this because a sum is the
exact one, rounded (`Binary64.units?_add`).
-/

namespace Sketch

/-- A greater quotient `n' / d` is not rounded to a smaller integer than `n / d` is. -/
theorem roundHalfEven_mono {n n' : Nat} (d : Nat) (h : n ≤ n') :
    roundHalfEven n d ≤ roundHalfEven n' d := by
  have hquotient : n / d ≤ n' / d := Nat.div_le_div_right h
  rcases Nat.lt_or_eq_of_le hquotient with hlt | heq
  · have hlow := roundHalfEven_eq_or n d
    have hhigh := roundHalfEven_eq_or n' d
    omega
  · -- With one quotient for both, the remainders decide.
    have hn := Nat.div_add_mod n d
    have hn' := Nat.div_add_mod n' d
    simp only [roundHalfEven]
    rw [heq] at hn ⊢
    split
    · split
      · exact Nat.le_refl _
      · exact Nat.le_succ _
    · exact Nat.le_of_eq (if_neg (by omega)).symm

namespace Magnitude

/-- A size `m` of the first block, below rank `2^52`, is as many units as its rank says. -/
theorem units_of_lt {m : Magnitude} (h : m.rank < 2 ^ 52) : m.units = m.rank := if_pos h

/-- A size `m` of a later block is a significand of 53 bits, scaled by a power of two: its rank is a
`block` and a `fraction`. -/
theorem exists_block {m : Magnitude} (h : 2 ^ 52 ≤ m.rank) : ∃ block fraction,
    m.rank = (block + 1) * 2 ^ 52 + fraction ∧ fraction < 2 ^ 52 ∧
      m.units = (2 ^ 52 + fraction) * 2 ^ block := by
  obtain ⟨rank, rank_le⟩ := m
  have hfirst : 2 ^ 52 ≤ rank := h
  obtain ⟨block, hblock⟩ : ∃ block, rank / 2 ^ 52 = block + 1 :=
    ⟨rank / 2 ^ 52 - 1, by omega⟩
  have hfraction : rank % 2 ^ 52 < 2 ^ 52 := Nat.mod_lt _ (by decide)
  have hrank := Nat.div_add_mod rank (2 ^ 52)
  have hsplit : rank = (block + 1) * 2 ^ 52 + rank % 2 ^ 52 := by omega
  refine ⟨block, rank % 2 ^ 52, hsplit, hfraction, ?_⟩
  rw [← units_mk block _ hfraction (hsplit ▸ rank_le)]
  simp only [← hsplit]

/-- The order of ranks is the order of sizes: if `m` has no greater rank than `n`, it has no more
units. -/
theorem units_mono {m n : Magnitude} (h : m.rank ≤ n.rank) : m.units ≤ n.units := by
  -- A size is in the first block or in a later one, and so is the other.
  rcases Nat.lt_or_ge n.rank (2 ^ 52) with hn | hn
  · rw [units_of_lt hn, units_of_lt (by omega)]
    exact h
  obtain ⟨block', fraction', hn, hfraction', hunits'⟩ := exists_block hn
  rcases Nat.lt_or_ge m.rank (2 ^ 52) with hm | hm
  · rw [units_of_lt hm, hunits']
    calc
      m.rank ≤ 2 ^ 52 + fraction' := by omega
      _ ≤ (2 ^ 52 + fraction') * 2 ^ block' := Nat.le_mul_of_pos_right _ (Nat.two_pow_pos _)
  obtain ⟨block, fraction, hm, hfraction, hunits⟩ := exists_block hm
  rw [hunits, hunits']
  rcases Nat.lt_or_eq_of_le (show block ≤ block' by omega) with hlt | rfl
  · -- The later block starts where the significands of the earlier one would reach 54 bits.
    calc
      (2 ^ 52 + fraction) * 2 ^ block ≤ 2 ^ 53 * 2 ^ block := Nat.mul_le_mul_right _ (by omega)
      _ = 2 ^ 52 * 2 ^ (block + 1) := by rw [Nat.pow_succ' (n := block)]; omega
      _ ≤ 2 ^ 52 * 2 ^ block' := Nat.mul_le_mul_left _ (Nat.pow_le_pow_right (by decide) hlt)
      _ ≤ (2 ^ 52 + fraction') * 2 ^ block' := Nat.mul_le_mul_right _ (by omega)
  · exact Nat.mul_le_mul_right _ (by omega)

/-! ## The rounded quotient -/

/-- How far the quotient `num / den` is shifted to leave 53 bits of it, which is not at all if it
has fewer. -/
def shift (num den : Nat) : Nat := (num / den).log2 - 52

/-- The bits of the quotient `num / den` that its `shift` leaves, rounded to an integer. -/
def significand (num den : Nat) : Nat := roundHalfEven num (den * 2 ^ shift num den)

section Quotient

variable {num num' den : Nat}

/-- The rounding `nearest` as a rank: the `shift` counts blocks, and the `significand` is added to
them. -/
theorem nearest_eq_ofRank :
    nearest num den = ofRank (shift num den * 2 ^ 52 + significand num den) := by
  have hsize : blockSize = 2 ^ 52 := rfl
  simp only [nearest, significand, shift, hsize, Nat.shiftLeft_eq]

/-- The `significand` has at most 53 bits, or it is `2^53` after rounding up. -/
theorem significand_le : significand num den ≤ 2 ^ 53 := by
  have hquotient : num / (den * 2 ^ shift num den) < 2 ^ 53 := by
    rw [← Nat.div_div_eq_div_mul, Nat.div_lt_iff_lt_mul (Nat.two_pow_pos _), ← Nat.pow_add, shift]
    exact Nat.lt_of_lt_of_le Nat.lt_log2_self (Nat.pow_le_pow_right (by decide) (by omega))
  have hround := roundHalfEven_eq_or num (den * 2 ^ shift num den)
  rw [significand]
  omega

/-- A quotient that is shifted has at least 53 bits: it is no less than `2^52` in units of the
`shift`. -/
theorem le_quotient (h : 52 ≤ (num / den).log2) : 2 ^ 52 * 2 ^ shift num den ≤ num / den := by
  rw [← Nat.pow_add, shift, Nat.add_sub_cancel' h]
  exact Nat.log2_self_le (by rintro heq; simp [heq] at h)

/-- The `significand` is at least `2^52`, so that it has 53 bits, unless the quotient has fewer. -/
theorem le_significand (h : 52 ≤ (num / den).log2) : 2 ^ 52 ≤ significand num den := by
  have hquotient : 2 ^ 52 ≤ num / (den * 2 ^ shift num den) := by
    rw [← Nat.div_div_eq_div_mul, Nat.le_div_iff_mul_le (Nat.two_pow_pos _)]
    exact le_quotient h
  have hround := roundHalfEven_eq_or num (den * 2 ^ shift num den)
  rw [significand]
  omega

/-- A greater quotient `num' / den` is not rounded to a size of smaller rank than `num / den` is. -/
theorem rank_nearest_mono (h : num ≤ num') : (nearest num den).rank ≤ (nearest num' den).rank := by
  have hquotient : num / den ≤ num' / den := Nat.div_le_div_right h
  have hlog : (num / den).log2 ≤ (num' / den).log2 := by
    rcases Nat.eq_zero_or_pos (num / den) with hzero | hpos
    · rw [hzero]
      exact Nat.zero_le _
    · exact (Nat.le_log2 (by omega)).mpr (Nat.le_trans (Nat.log2_self_le (by omega)) hquotient)
  rw [nearest_eq_ofRank, nearest_eq_ofRank]
  -- The bound by the rank of infinity is the same on both sides.
  suffices shift num den * 2 ^ 52 + significand num den ≤
      shift num' den * 2 ^ 52 + significand num' den from
    Nat.le_min.mpr ⟨Nat.le_trans (Nat.min_le_left _ _) this, Nat.min_le_right _ _⟩
  have hshift : shift num den ≤ shift num' den := Nat.sub_le_sub_right hlog 52
  rcases Nat.lt_or_eq_of_le hshift with hlt | heq
  · -- The end of the block of the smaller one is not beyond the start of the other's.
    have hlow : significand num den ≤ 2 ^ 53 := significand_le
    have hhigh : 2 ^ 52 ≤ significand num' den := by
      refine le_significand ?_
      unfold shift at hlt
      omega
    have hblocks : (shift num den + 1) * 2 ^ 52 ≤ shift num' den * 2 ^ 52 :=
      Nat.mul_le_mul_right _ hlt
    omega
  · unfold significand
    rw [heq]
    exact Nat.add_le_add_left (roundHalfEven_mono _ h) _

/-- A greater quotient `num' / den` is not rounded to fewer units than `num / den` is. -/
theorem units_nearest_mono (h : num ≤ num') :
    (nearest num den).units ≤ (nearest num' den).units :=
  units_mono (rank_nearest_mono h)

end Quotient

end Magnitude

namespace Binary64

variable {x y : Binary64} {a b z z' units units' : Int}

/-- The numbers `x` with an exact value are those of finite size, and the value is the signed count
of units. -/
theorem units?_eq_some_iff : x.units? = some a ↔ ∃ negative m, x = signed negative m ∧
    m.isFinite ∧ a = if negative then -(m.units : Int) else m.units := by
  cases x with
  | notNumber negative => simp [units?]
  | signed negative m =>
    simp only [units?, Option.ite_none_right_eq_some, Option.some.injEq, signed.injEq]
    constructor
    · rintro ⟨hfinite, rfl⟩
      exact ⟨negative, m, ⟨rfl, rfl⟩, hfinite, rfl⟩
    · rintro ⟨_, _, ⟨rfl, rfl⟩, hfinite, rfl⟩
      exact ⟨hfinite, rfl⟩

/-- Of two counts of units `z` and `z'`, the greater is not rounded by `ofUnits` to the smaller
number. -/
theorem units?_ofUnits_mono (h : z ≤ z') (hz : (ofUnits z).units? = some units)
    (hz' : (ofUnits z').units? = some units') : units ≤ units' := by
  simp only [ofUnits, units?, Option.ite_none_right_eq_some, Option.some.injEq,
    decide_eq_true_eq] at hz hz'
  obtain ⟨-, rfl⟩ := hz
  obtain ⟨-, rfl⟩ := hz'
  -- Below zero a smaller number has more units, so the order of sizes turns around there.
  by_cases hneg : z < 0
  · rw [if_pos hneg]
    by_cases hneg' : z' < 0
    · have hsizes : (Magnitude.nearest z'.natAbs 1).units ≤ (Magnitude.nearest z.natAbs 1).units :=
        Magnitude.units_nearest_mono (by omega)
      rw [if_pos hneg']
      omega
    · rw [if_neg hneg']
      omega
  · have hsizes : (Magnitude.nearest z.natAbs 1).units ≤ (Magnitude.nearest z'.natAbs 1).units :=
      Magnitude.units_nearest_mono (by omega)
    rw [if_neg hneg, if_neg (by omega)]
    omega

/-- The rounding `ofUnits` keeps the value `a` of a number `x`. -/
theorem units?_ofUnits (h : x.units? = some a) : (ofUnits a).units? = some a := by
  obtain ⟨negative, m, rfl, hfinite, rfl⟩ := units?_eq_some_iff.mp h
  have habs : (if negative then -(m.units : Int) else m.units).natAbs = m.units := by
    cases negative <;> simp
  generalize (if negative then -(m.units : Int) else m.units) = units at habs
  rw [ofUnits, habs, Magnitude.nearest_units, units?, if_pos hfinite, ← habs, Option.some.injEq]
  by_cases hneg : units < 0
  · rw [if_pos (decide_eq_true hneg)]
    omega
  · rw [if_neg (by simpa using hneg)]
    omega

/-- What is not below the value `a` of a number `x` is not rounded to less than `a`. -/
theorem le_of_le_units (hx : x.units? = some a) (h : a ≤ z)
    (hz : (ofUnits z).units? = some units) : a ≤ units :=
  units?_ofUnits_mono h (units?_ofUnits hx) hz

/-- What is not above the value `a` of a number `x` is not rounded to more than `a`. -/
theorem le_of_units_le (hx : x.units? = some a) (h : z ≤ a)
    (hz : (ofUnits z).units? = some units) : units ≤ a :=
  units?_ofUnits_mono h hz (units?_ofUnits hx)

/-- The number `x.neg` with the other sign has the opposite value. -/
theorem units?_neg (h : x.units? = some a) : x.neg.units? = some (-a) := by
  obtain ⟨negative, m, rfl, hfinite, rfl⟩ := units?_eq_some_iff.mp h
  cases negative <;> simp [neg, units?, hfinite]

/-- A sum `x.add y` of two numbers with values has the value of the exact sum `a + b`, rounded once.
-/
theorem units?_add (hx : x.units? = some a) (hy : y.units? = some b) :
    (x.add y).units? = (ofUnits (a + b)).units? := by
  obtain ⟨s, m, rfl, -⟩ := units?_eq_some_iff.mp hx
  obtain ⟨t, n, rfl, -⟩ := units?_eq_some_iff.mp hy
  simp only [add, hx, hy]
  split
  case isTrue hzero =>
    rw [hzero]
    cases s && t <;> rfl
  case isFalse => rfl

/-- A difference `x.sub y` of two numbers with values has the value of the exact difference `a - b`,
rounded once. -/
theorem units?_sub (hx : x.units? = some a) (hy : y.units? = some b) :
    (x.sub y).units? = (ofUnits (a - b)).units? :=
  units?_add hx (units?_neg hy)

end Binary64

end Sketch
