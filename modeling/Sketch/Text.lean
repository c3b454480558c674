/-!
# Texts as bytes

Programs, messages, paths and documents are lists of bytes. No encoding is assumed: a byte above 127
is a byte like any other that is neither a letter, a digit nor white space. `lower_lower` is what
names rest on; `beforeNul_append` and `beforeNul_append_nul` say where a text is cut at a zero byte,
which is what messages and arguments rest on.
-/

namespace Sketch

/-- One byte of a text. -/
abbrev Byte := UInt8

/-- A text is a list of bytes. -/
abbrev Text := List Byte

/-- The bytes of an ASCII `literal`, one for each of its characters. -/
def ascii (literal : String) : Text :=
  literal.toList.map Char.toUInt8

namespace Byte

/-- The tab. -/
def tab : Byte := 9

/-- The line feed, which ends a line. -/
def newline : Byte := 10

/-- The double quote. -/
def quote : Byte := 34

/-- The number sign. -/
def hash : Byte := 35

/-- The minus sign. -/
def minus : Byte := 45

/-- The full stop. -/
def dot : Byte := 46

/-- The slash. -/
def slash : Byte := 47

/-- The digit zero, the first of the ten digits. -/
def digitZero : Byte := 48

/-- The backslash. -/
def backslash : Byte := 92

/-- White space is the tab, line feed, vertical tab, form feed, carriage return and blank, that is
the bytes 9 to 13 and 32. -/
def isSpace (b : Byte) : Bool := (9 ≤ b && b ≤ 13) || b == 32

/-- The ten ASCII digits. -/
def isDigit (b : Byte) : Bool := 48 ≤ b && b ≤ 57

/-- The 26 ASCII capital letters. -/
def isCapital (b : Byte) : Bool := 65 ≤ b && b ≤ 90

/-- The small form of a byte: `isCapital` letters are moved by 32, and every other byte is kept. -/
def lower (b : Byte) : Byte := if isCapital b then b + 32 else b

/-- The ASCII letters of either case: those whose small form is one of the bytes 97 to 122. -/
def isLetter (b : Byte) : Bool := 97 ≤ lower b && lower b ≤ 122

/-- A word starts with a letter or an underscore. -/
def isWordStart (b : Byte) : Bool := isLetter b || b == 95

/-- A word goes on with letters, digits and underscores. -/
def isWordByte (b : Byte) : Bool := isWordStart b || isDigit b

/-- The digit for a number `n` below sixteen, with capital letters above nine. -/
def hexDigit (n : Byte) : Byte := if n < 10 then 48 + n else 55 + n

/-- A small form `lower b` is no capital letter, whatever the byte `b` is. -/
theorem isCapital_lower (b : Byte) : isCapital (lower b) = false := by
  unfold lower
  split
  · simp_all [isCapital, UInt8.le_iff_toNat_le, UInt8.toNat_add]
    omega
  · simp_all

/-- Folding the case of a byte twice is folding it once, since `lower b` is no capital letter. -/
theorem lower_lower (b : Byte) : lower (lower b) = lower b := by
  rw [lower, isCapital_lower]
  rfl

/-- A byte `b'` with the same small form as a letter `b` is a letter: it is `b` in either case. -/
theorem isLetter_of_lower_eq {b b' : Byte} (hb : b.isLetter) (h : b'.lower = b.lower) :
    b'.isLetter := by
  rwa [isLetter, h]

/-- A character `c` that is a digit for `Char.isDigit` is a digit as a byte. -/
theorem isDigit_toUInt8 {c : Char} (h : c.isDigit) : isDigit c.toUInt8 := by
  have hbyte : c.toUInt8.toNat = c.toNat % 2 ^ 8 := UInt32.toNat_toUInt8 c.val
  simp [Char.isDigit, UInt32.le_iff_toNat_le] at h
  simp [isDigit, UInt8.le_iff_toNat_le]
  omega

/-- A digit is no zero byte, so that a numeral is never cut by `Text.beforeNul`. -/
theorem ne_zero_of_isDigit {b : Byte} (h : isDigit b) : b ≠ 0 := by
  rintro rfl
  simp [isDigit] at h

end Byte

namespace Text

/-- The text `t` with its ASCII letters made small, byte by byte. -/
def lower (t : Text) : Text := t.map Byte.lower

/-- Two texts `s` and `t` are alike when they differ only in the case of ASCII letters, so that
their `lower` forms are equal. -/
def alike (s t : Text) : Bool := lower s == lower t

/-- What stands in `t` before its first zero byte, or all of `t` if it has none. -/
def beforeNul (t : Text) : Text := t.takeWhile (· != 0)

/-- The decimal digits of a natural number `n`, without leading zeros. -/
def ofNat (n : Nat) : Text := (Nat.toDigits 10 n).map Char.toUInt8

/-- The decimal digits of an integer `z`, after a minus sign if it is negative. -/
def ofInt (z : Int) : Text :=
  if z < 0 then Byte.minus :: ofNat z.natAbs else ofNat z.natAbs

/-- The two hexadecimal digits of a byte `b`, the higher one first. -/
def hexByte (b : Byte) : Text := [Byte.hexDigit (b / 16), Byte.hexDigit (b % 16)]

/-- Folding the case of a text `t` twice is folding it once, as it is for each of its bytes. -/
theorem lower_lower (t : Text) : lower (lower t) = lower t := by
  simp [lower, Byte.lower_lower]

/-- A natural number `n` is written by `ofNat` with digits and nothing else. -/
theorem isDigit_of_mem_ofNat {n : Nat} {b : Byte} (h : b ∈ ofNat n) : b.isDigit := by
  obtain ⟨c, hc, rfl⟩ := List.mem_map.mp h
  exact Byte.isDigit_toUInt8 (Nat.isDigit_of_mem_toDigits (by decide) (by decide) hc)

/-- A text `s` without zero bytes is not cut by `beforeNul`, and the text `t` behind it is cut as it
would be alone. -/
theorem beforeNul_append (s t : Text) (h : ∀ b ∈ s, b ≠ 0) :
    beforeNul (s ++ t) = s ++ beforeNul t :=
  List.takeWhile_append_of_pos fun b hb => by simpa using h b hb

/-- No byte `b` of what `beforeNul` leaves of a text is the zero byte. -/
theorem ne_zero_of_mem_beforeNul {b : Byte} {t : Text} (h : b ∈ beforeNul t) : b ≠ 0 := by
  simpa using List.all_eq_true.1 List.all_takeWhile b h

/-- What follows a zero byte is cut away by `beforeNul`: only the text `s` in front of it matters.
-/
theorem beforeNul_append_nul (s t : Text) : beforeNul (s ++ 0 :: t) = beforeNul s := by
  induction s with
  | nil => rfl
  | cons c s ih => grind [beforeNul, List.takeWhile_cons]

end Text

end Sketch
