import Sketch.Binary64.Numeral
import Sketch.Color
import Sketch.Proofs.Decimal
import Sketch.Proofs.Monotone

/-!
# How numbers and colors are printed

An integer is printed as digits, and so is a binary64 number, which may have a fraction and an
exponent behind them; a minus sign may come first (`IsPrintedNumber`). `isPrintedNumber_ofInt` and
`Binary64.isPrintedNumber_text` show this of all integers and of all finite numbers. A color is
printed as a number sign and six hexadecimal digits (`Color.isHexColor_hex`). Neither of them goes
on beyond its line (`IsPrintedNumber.newline_notMem`, `IsHexColor.newline_notMem`).
-/

namespace Sketch

/-! ## Numbers -/

/-- The text `t` is a run of digits that is not empty. -/
structure IsDigits (t : Text) : Prop where
  ne_nil : t ≠ []
  isDigit : ∀ b ∈ t, b.isDigit

/-- What may stand behind the whole digits of a printed number: nothing, or a point and at least one
digit. -/
inductive IsFraction : Text → Prop where
  | none : IsFraction []
  | point {digits : Text} : IsDigits digits → IsFraction (Byte.dot :: digits)

/-- What a printed number may end with: nothing, or the letter `e`, a sign and at least one digit.
-/
inductive IsExponent : Text → Prop where
  | none : IsExponent []
  | signed {sign digits : Text} : sign = ascii "+" ∨ sign = ascii "-" → IsDigits digits →
      IsExponent (ascii "e" ++ sign ++ digits)

/-- A printed number is digits with an `IsFraction` and an `IsExponent` behind them, and a minus
sign in front if it is negative. -/
inductive IsPrintedNumber : Text → Prop where
  | unsigned {whole fraction exponent : Text} : IsDigits whole → IsFraction fraction →
      IsExponent exponent → IsPrintedNumber (whole ++ fraction ++ exponent)
  | negative {whole fraction exponent : Text} : IsDigits whole → IsFraction fraction →
      IsExponent exponent → IsPrintedNumber (Byte.minus :: (whole ++ fraction ++ exponent))

/-- A byte `b` that is no digit is not among digits, which is how a mark is kept out of a printed
number. -/
theorem IsDigits.notMem {t : Text} {b : Byte} (h : IsDigits t) (hb : b.isDigit = false) :
    b ∉ t := by
  intro hmem
  rw [h.isDigit b hmem] at hb
  cases hb

/-- A byte `b` that is neither a digit (`hb`) nor the point (`hdot`) is not in a fraction. -/
theorem IsFraction.notMem {t : Text} {b : Byte} (h : IsFraction t) (hb : b.isDigit = false)
    (hdot : b ≠ Byte.dot) : b ∉ t := by
  cases h with
  | none => exact List.not_mem_nil
  | point hdigits => exact List.not_mem_cons_of_ne_of_not_mem hdot (hdigits.notMem hb)

/-- A byte `b` that is neither a digit (`hb`) nor one of the marks `e`, `+` and `-` is not in an
exponent. -/
theorem IsExponent.notMem {t : Text} {b : Byte} (h : IsExponent t) (hb : b.isDigit = false)
    (hmarks : b ∉ ascii "e+-") : b ∉ t := by
  cases h with
  | none => exact List.not_mem_nil
  | @signed sign digits hsign hdigits =>
    have hsubset : ascii "e" ++ sign ⊆ ascii "e+-" := by
      rcases hsign with rfl | rfl <;> decide
    exact List.not_mem_append (fun hmem => hmarks (hsubset hmem)) (hdigits.notMem hb)

/-- A byte `b` that is neither a digit (`hb`) nor one of the marks `.`, `e`, `+` and `-` is not in a
printed number. -/
theorem IsPrintedNumber.notMem {t : Text} {b : Byte} (h : IsPrintedNumber t)
    (hb : b.isDigit = false) (hmarks : b ∉ ascii ".e+-") : b ∉ t := by
  -- A mark may stand in the exponent, and `.` and `-` in front of it.
  have hexp : b ∉ ascii "e+-" := fun hmem => hmarks (List.mem_cons_of_mem _ hmem)
  have hdot : b ≠ Byte.dot := by
    rintro rfl
    exact hmarks (by decide)
  cases h with
  | unsigned hwhole hfraction hexponent =>
    exact List.not_mem_append (List.not_mem_append (hwhole.notMem hb) (hfraction.notMem hb hdot))
      (hexponent.notMem hb hexp)
  | negative hwhole hfraction hexponent =>
    have hminus : b ≠ Byte.minus := by
      rintro rfl
      exact hmarks (by decide)
    exact List.not_mem_cons_of_ne_of_not_mem hminus (List.not_mem_append
      (List.not_mem_append (hwhole.notMem hb) (hfraction.notMem hb hdot))
      (hexponent.notMem hb hexp))

/-- There is no line feed in a printed number, by `IsPrintedNumber.notMem`, so it never breaks a
line. -/
theorem IsPrintedNumber.newline_notMem {t : Text} (h : IsPrintedNumber t) : Byte.newline ∉ t :=
  h.notMem rfl (by decide)

/-- A natural number `n` is printed by `Text.ofNat` as digits, at least one of them. -/
theorem isDigits_ofNat (n : Nat) : IsDigits (Text.ofNat n) :=
  ⟨Text.ofNat_ne_nil n, fun _ => Text.isDigit_of_mem_ofNat⟩

/-- The text `0` is a digit: what stands before the point of a number below one. -/
theorem isDigits_zero : IsDigits (ascii "0") := isDigits_ofNat 0

/-- An integer `z` is printed by `Text.ofInt` as a number without a fraction and without an
exponent. -/
theorem isPrintedNumber_ofInt (z : Int) : IsPrintedNumber (Text.ofInt z) := by
  have hdigits : Text.ofNat z.natAbs ++ [] ++ [] = Text.ofNat z.natAbs := by simp
  unfold Text.ofInt
  split
  · rw [← hdigits]
    exact .negative (isDigits_ofNat _) .none .none
  · rw [← hdigits]
    exact .unsigned (isDigits_ofNat _) .none .none

/-- The first digits of a run of them are digits. There is at least one, since `n + 1` are taken. -/
theorem IsDigits.take {t : Text} (h : IsDigits t) (n : Nat) : IsDigits (t.take (n + 1)) := by
  obtain ⟨b, rest, rfl⟩ := List.exists_cons_of_ne_nil h.ne_nil
  refine ⟨by simp, fun c hc => h.isDigit c (List.mem_of_mem_take hc)⟩

namespace RoundedDecimal

/-- The `digits` behind the point are printed by `fraction` without the zeros at their end: as a
point and digits, or as nothing if no digit is left. -/
theorem isFraction_fraction {digits : Text} (h : ∀ b ∈ digits, Byte.isDigit b) :
    IsFraction (fraction digits) := by
  unfold fraction
  simp only
  split
  · exact .none
  case isFalse hne =>
    refine .point ⟨by simpa using hne, fun b hb => h b ?_⟩
    exact List.mem_reverse.mp ((List.dropWhile_sublist _).mem (List.mem_reverse.mp hb))

/-- An exponent is printed by `exponentMark` as the letter `e`, its sign, and at least two digits.
-/
theorem isExponent_exponentMark (exponent : Int) : IsExponent (exponentMark exponent) := by
  let padding : Text := if (Text.ofNat exponent.natAbs).length < 2 then [Byte.digitZero] else []
  have hdigits : IsDigits (padding ++ Text.ofNat exponent.natAbs) := by
    refine ⟨by simp [Text.ofNat_ne_nil], fun b hb => ?_⟩
    -- A single digit gets a zero in front of it.
    rcases List.mem_append.mp hb with hzero | hdigit
    · obtain ⟨-, hzero⟩ := List.mem_ite_nil_right.mp hzero
      rw [List.mem_singleton.mp hzero]
      rfl
    · exact Text.isDigit_of_mem_ofNat hdigit
  show IsExponent (ascii "e" ++ ascii (if exponent < 0 then "-" else "+") ++ padding ++
    Text.ofNat exponent.natAbs)
  rw [List.append_assoc]
  refine .signed ?_ hdigits
  split
  · exact .inr rfl
  · exact .inl rfl

/-- A rounded decimal number `d` is printed, in either `style`, as digits, a fraction and an
exponent. -/
theorem exists_text_eq (style : NumeralStyle) (d : RoundedDecimal) : ∃ whole fraction exponent,
    IsDigits whole ∧ IsFraction fraction ∧ IsExponent exponent ∧
      d.text style = whole ++ fraction ++ exponent := by
  have hdigits := isDigits_ofNat d.significand
  have hdrop : ∀ n, ∀ b ∈ (Text.ofNat d.significand).drop n, b.isDigit :=
    fun n b hb => hdigits.isDigit b (List.mem_of_mem_drop hb)
  unfold text
  simp only
  -- An exponent, a number below one, or whole digits: the three ways to print a decimal number.
  split
  · exact ⟨_, _, _, hdigits.take 0, isFraction_fraction (hdrop 1), isExponent_exponentMark _, rfl⟩
  split
  · have hzeros : ∀ b ∈ List.replicate (d.exponent.natAbs - 1) Byte.digitZero ++
        Text.ofNat d.significand, b.isDigit := by
      intro b hb
      rcases List.mem_append.mp hb with hzero | hdigit
      · rw [List.eq_of_mem_replicate hzero]
        rfl
      · exact hdigits.isDigit b hdigit
    exact ⟨_, _, [], isDigits_zero, isFraction_fraction hzeros, .none,
      (List.append_nil _).symm⟩
  · exact ⟨_, _, [], hdigits.take _, isFraction_fraction (hdrop _), .none,
      (List.append_nil _).symm⟩

end RoundedDecimal

/-- A finite size `m` is printed, in either `style`, as digits, a fraction and an exponent. -/
theorem Magnitude.exists_text_eq (style : NumeralStyle) {m : Magnitude} (h : m.isFinite) :
    ∃ whole fraction exponent, IsDigits whole ∧ IsFraction fraction ∧ IsExponent exponent ∧
      m.text style = whole ++ fraction ++ exponent := by
  unfold text
  rw [if_neg (by simp [h])]
  split
  · exact ⟨ascii "0", [], [], isDigits_zero, .none, .none, rfl⟩
  · exact RoundedDecimal.exists_text_eq style _

/-- The text of a finite number `x` is a printed number, with a minus sign if `x` has one. -/
theorem Binary64.isPrintedNumber_text {x : Binary64} (h : x.isFinite) :
    IsPrintedNumber x.text := by
  obtain ⟨units, hunits⟩ := Option.isSome_iff_exists.mp h
  obtain ⟨negative, m, rfl, hfinite, -⟩ := units?_eq_some_iff.mp hunits
  obtain ⟨whole, fraction, exponent, hwhole, hfraction, hexponent, htext⟩ :=
    m.exists_text_eq .standard hfinite
  cases negative with
  | true =>
    show IsPrintedNumber (Byte.minus :: m.text .standard)
    rw [htext]
    exact .negative hwhole hfraction hexponent
  | false =>
    show IsPrintedNumber (m.text .standard)
    rw [htext]
    exact .unsigned hwhole hfraction hexponent

/-- A byte `b` that is neither a digit (`hb`) nor one of the marks and letters of `hmarks` and
`hletters` is in the text of no number `x`. What is no finite number is printed by the letters of
`nan` and `inf`. -/
theorem Binary64.notMem_text (x : Binary64) {b : Byte} (hb : b.isDigit = false)
    (hmarks : b ∉ ascii ".e+-") (hletters : b ∉ ascii "infa") : b ∉ x.text := by
  by_cases hfinite : x.isFinite
  · exact (isPrintedNumber_text hfinite).notMem hb hmarks
  have hnames : ascii "nan" ⊆ ascii "infa" ∧ ascii "inf" ⊆ ascii "infa" := by decide
  have hsign : ∀ negative : Bool, (if negative then [Byte.minus] else []) ⊆ ascii ".e+-" := by
    decide
  -- What is left is printed by its sign and its name.
  cases x with
  | notNumber negative =>
    exact List.not_mem_append (fun hmem => hmarks (hsign negative hmem))
      fun hmem => hletters (hnames.1 hmem)
  | signed negative m =>
    have hm : m.isFinite = false := by simpa [isFinite, units?] using hfinite
    have htext : m.text .standard = ascii "inf" := by
      rw [Magnitude.text, hm]
      rfl
    rw [text, htext]
    exact List.not_mem_append (fun hmem => hmarks (hsign negative hmem))
      fun hmem => hletters (hnames.2 hmem)

/-! ## Colors -/

/-- The byte `b` is one of the sixteen hexadecimal digits, with capital letters `A` to `F`. -/
def Byte.isHexDigit (b : Byte) : Bool := isDigit b || (65 ≤ b && b ≤ 70)

/-- A printed color: a number sign and six hexadecimal digits (`Byte.isHexDigit`). -/
inductive IsHexColor : Text → Prop where
  | digits {digits : Text} : digits.length = 6 → (∀ b ∈ digits, b.isHexDigit) →
      IsHexColor (Byte.hash :: digits)

/-- There is no line feed in a printed color, whose bytes are a number sign and digits. -/
theorem IsHexColor.newline_notMem {t : Text} (h : IsHexColor t) : Byte.newline ∉ t := by
  cases h with
  | digits _ hdigits =>
    refine List.not_mem_cons_of_ne_of_not_mem (by decide) fun hmem => ?_
    exact absurd (hdigits _ hmem) (by decide)

/-- A number `n` below sixteen is printed by `hexDigit` as a hexadecimal digit. -/
theorem Byte.isHexDigit_hexDigit {n : Byte} (h : n < 16) : isHexDigit (hexDigit n) := by
  unfold hexDigit
  split
  · simp_all [isHexDigit, isDigit, UInt8.le_iff_toNat_le, UInt8.lt_iff_toNat_lt, UInt8.toNat_add]
    omega
  · simp_all [isHexDigit, isDigit, UInt8.le_iff_toNat_le, UInt8.lt_iff_toNat_lt, UInt8.toNat_add]
    omega

/-- A byte `b` is printed by `hexByte` as two hexadecimal digits, of which `c` is one. -/
theorem Text.isHexDigit_of_mem_hexByte {b c : Byte} (h : c ∈ hexByte b) : c.isHexDigit := by
  have hhigh : b / 16 < 16 := by
    rw [UInt8.lt_iff_toNat_lt, UInt8.toNat_div]
    have := b.toNat_lt
    simp
    omega
  have hlow : b % 16 < 16 := by
    rw [UInt8.lt_iff_toNat_lt, UInt8.toNat_mod]
    simp
    omega
  rcases List.mem_pair.mp h with rfl | rfl
  · exact Byte.isHexDigit_hexDigit hhigh
  · exact Byte.isHexDigit_hexDigit hlow

/-- A color `c` is printed by `Color.hex` as a number sign and six hexadecimal digits, two for each
part. -/
theorem Color.isHexColor_hex (c : Color) : IsHexColor c.hex := by
  refine .digits rfl fun b hb => ?_
  simp only [List.mem_append] at hb
  obtain (hb | hb) | hb := hb
  · exact Text.isHexDigit_of_mem_hexByte hb
  · exact Text.isHexDigit_of_mem_hexByte hb
  · exact Text.isHexDigit_of_mem_hexByte hb

end Sketch
