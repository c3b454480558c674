/-!
# Binary64 numbers

The numbers of the language are the binary64 numbers of IEEE 754: two zeros, the signed finite
numbers of 53 significant bits, two infinities, and a positive and a negative value that is not a
number. The sizes of the signed numbers form an increasing list, from zero by the least positive
number on to infinity, and a size is held as its rank in that list. Every finite size is a whole
multiple of the least positive one, `2^-1074`, so that all exact arithmetic happens in the integers
(`Magnitude.units`). The rank is also what the 64-bit encoding holds under the sign, and encoding
loses nothing (`ofBits_toBits`).
-/

namespace Sketch

/-- The count of sizes in a block, `2^52`: the sizes of one block differ in the 52 bits after their
first one. -/
def Magnitude.blockSize : Nat := 0x10000000000000

/-- The rank of `Magnitude.infinity` among the sizes: below it lie 2047 blocks of `blockSize` finite
sizes each. -/
def Magnitude.infinityRank : Nat := 2047 * blockSize

/-- The size of a binary64 number, held as its `rank` in the increasing list of all sizes, where
zero has rank 0 and infinity has `infinityRank`. -/
structure Magnitude where
  /-- The number of sizes below this one. -/
  rank : Nat
  /-- No size is above infinity. -/
  rank_le : rank ≤ Magnitude.infinityRank
deriving DecidableEq

namespace Magnitude

/-- The size of zero, of rank 0, which both signed zeros have. -/
def zero : Magnitude := ⟨0, Nat.zero_le _⟩

/-- The infinite size, of rank `infinityRank`, above which there is no other. -/
def infinity : Magnitude := ⟨infinityRank, Nat.le_refl _⟩

/-- The size of the given `rank`, or `infinity` if there is no finite size of that rank. -/
def ofRank (rank : Nat) : Magnitude := ⟨min rank infinityRank, Nat.min_le_right _ _⟩

/-- The size `m` is that of a finite number: its rank is below `infinityRank`. -/
def isFinite (m : Magnitude) : Bool := m.rank < infinityRank

/-- How often the least positive number goes into a finite size `m`. The first two blocks of `2^52`
sizes are one unit apart, and in each later block the distance doubles. -/
def units (m : Magnitude) : Nat :=
  if m.rank < blockSize then m.rank
  else (blockSize + m.rank % blockSize) <<< (m.rank / blockSize - 1)

end Magnitude

/-- A binary64 number. Of a value that is not a number only the sign is held, since nothing else of
it is ever printed. -/
inductive Binary64 where
  /-- A value that is not a number, with its sign. -/
  | notNumber (negative : Bool)
  /-- A zero, a finite number or an infinity, with its sign. -/
  | signed (negative : Bool) (magnitude : Magnitude)
deriving DecidableEq

namespace Binary64

/-- How many units of `2^-1074` make one: the number 1 has so many `Magnitude.units`. -/
def unitsPerOne : Nat := 1 <<< 1074

/-- The positive zero. The negative one is `signed true .zero`. -/
def zero : Binary64 := signed false .zero

/-- The positive value that is not a number. It is what an input of that kind is read as, while
`add` also gives the negative one. -/
@[match_pattern]
def nan : Binary64 := notNumber false

/-- The value is not a number, whatever its sign, so that it has no `units?` and no pixel. -/
def isNaN : Binary64 → Bool
  | notNumber _ => true
  | signed _ _ => false

/-- The place of the sign in the interchange encoding, `2^63`, above the 63 bits of the rank. -/
def signBit : Nat := 0x8000000000000000

/-- The number with the interchange encoding `bits`: a sign bit above the rank of the size, where
the ranks beyond `Magnitude.infinityRank` mark what is not a number. -/
def ofBits (bits : UInt64) : Binary64 :=
  let rank := bits.toNat % signBit
  if h : rank ≤ Magnitude.infinityRank then signed (signBit ≤ bits.toNat) ⟨rank, h⟩
  else notNumber (signBit ≤ bits.toNat)

/-- The interchange encoding of a number, from which `ofBits` reads it back. What is not a number is
encoded as the quiet one of its sign. -/
def toBits : Binary64 → UInt64
  | notNumber negative => (if negative then signBit.toUInt64 else 0) + 0x7ff8000000000000
  | signed negative m => (if negative then signBit.toUInt64 else 0) + m.rank.toUInt64

/-- The encoding of `signed negative m`, as a natural number, is the rank of `m`, with `signBit`
added to it if the number is negative. -/
theorem toNat_toBits_signed (negative : Bool) (m : Magnitude) :
    (signed negative m).toBits.toNat = (if negative then signBit else 0) + m.rank := by
  have hm : m.rank ≤ 0x7ff0000000000000 := m.rank_le
  cases negative
  · simp [toBits]
    omega
  · simp [toBits, signBit, UInt64.toNat_add]
    omega

/-- A number `x` that was encoded by `toBits` is read back by `ofBits`, as is a value that is not a
number, with its sign. -/
theorem ofBits_toBits (x : Binary64) : ofBits x.toBits = x := by
  cases x with
  | notNumber negative => cases negative <;> decide
  | signed negative m =>
    have hm : m.rank ≤ 0x7ff0000000000000 := m.rank_le
    have hrank : (signed negative m).toBits.toNat % signBit = m.rank := by
      rw [toNat_toBits_signed, signBit]
      split <;> omega
    have hsign : decide (signBit ≤ (signed negative m).toBits.toNat) = negative := by
      rw [toNat_toBits_signed, signBit]
      cases negative
      · simp
        omega
      · simp
    simp only [ofBits, hrank, hsign, m.rank_le, dite_true]

/-- The exact value of a finite number in units of `2^-1074`, with its sign, and nothing for
infinities and for what is not a number. -/
def units? : Binary64 → Option Int
  | notNumber _ => none
  | signed negative m =>
    if m.isFinite then some (if negative then -(m.units : Int) else m.units) else none

/-- The number `x` is finite: it has an exact value `units?`. -/
def isFinite (x : Binary64) : Bool := x.units?.isSome

/-- Two numbers are equal as numbers: of the same size and sign, or both zeros. What is not a number
equals nothing, itself included. -/
def equal : Binary64 → Binary64 → Bool
  | signed s m, signed t n => m == n && (s == t || m == .zero)
  | _, _ => false

end Binary64

end Sketch
