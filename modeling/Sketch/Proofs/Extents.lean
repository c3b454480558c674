import Mathlib.Tactic.Linarith
import Sketch.Proofs.Circles

/-!
# How large a rectangle may be

A rectangle may go in any direction from its first corner. A picture gives it by its least corner
and its extents, and `Session.rectangles_are_normalised` shows when these are right: the corner
always is, and an extent is the length of its side as long as that is below `2^31`. No side is
longer than `2^31`, but one of that length has an extent of `-2^31`, which
`Session.rectangle_of_negative_width` shows of two rectangles.

The length of a side is bounded because the width lies on the grid, too. Backwards that is a matter
of integers (`side_ge`), between which rounding keeps the order. Forwards a side of less than `2^31`
that starts inside a pixel may end just below an integer, and must not be rounded up to it
(`side_le`). What prevents that is that the numbers just below `2^31` are `2^-22` apart, so that the
greatest of them leaves room for a whole step (`Binary64.add_le_of_lt`).
-/

namespace Sketch

/-! ## The numbers below a power of two -/

/-- A size `m` below `2^53` steps of `2 ^ e` is at least one step below, since a size there is no
longer than its steps allow. -/
theorem Magnitude.units_add_le_of_lt {m : Magnitude} {e : Nat} (h : m.units < 2 ^ 53 * 2 ^ e) :
    m.units + 2 ^ e ≤ 2 ^ 53 * 2 ^ e := by
  have hstep : 0 < 2 ^ e := Nat.two_pow_pos e
  rcases Nat.lt_or_ge m.rank (2 ^ 52) with hm | hm
  · rw [units_of_lt hm]
    omega
  · obtain ⟨block, fraction, -, hfraction, hunits⟩ := exists_block hm
    rw [hunits] at h ⊢
    -- The size has a significand of 53 bits, and so its own steps are no longer than the given one.
    have hblock : 2 ^ block ≤ 2 ^ e := by
      apply Nat.pow_le_pow_right (by decide)
      have hfirst : 2 ^ 52 * 2 ^ block < 2 ^ 52 * 2 ^ (e + 1) := by
        calc
          2 ^ 52 * 2 ^ block ≤ (2 ^ 52 + fraction) * 2 ^ block := Nat.mul_le_mul_right _ (by omega)
          _ < 2 ^ 53 * 2 ^ e := h
          _ = 2 ^ 52 * 2 ^ (e + 1) := by rw [Nat.pow_succ']; omega
      exact Nat.le_of_lt_succ
        ((Nat.pow_lt_pow_iff_right (by decide)).mp (Nat.lt_of_mul_lt_mul_left hfirst))
    calc
      (2 ^ 52 + fraction) * 2 ^ block + 2 ^ e ≤ (2 ^ 53 - 1) * 2 ^ e + 2 ^ e :=
        Nat.add_le_add_right (Nat.mul_le_mul (by omega) hblock) _
      _ = 2 ^ 53 * 2 ^ e := by omega

/-- A number `x` below `2^53` steps of `2 ^ e` is at least one step below, whatever its sign is. -/
theorem Binary64.add_le_of_lt {x : Binary64} {a : Int} {e : Nat} (hx : x.units? = some a)
    (h : a < 2 ^ 53 * (2 ^ e : Nat)) : a + (2 ^ e : Nat) ≤ 2 ^ 53 * (2 ^ e : Nat) := by
  have hstep : 0 < 2 ^ e := Nat.two_pow_pos e
  obtain ⟨negative, m, rfl, -, rfl⟩ := units?_eq_some_iff.mp hx
  cases negative with
  | true =>
    simp only [if_true]
    omega
  | false =>
    simp only [Bool.false_eq_true, if_false] at h ⊢
    have hunits : m.units + 2 ^ e ≤ 2 ^ 53 * 2 ^ e := Magnitude.units_add_le_of_lt (by omega)
    omega

/-! ## The length of a side -/

variable {x width : Binary64} {near far : Pixel}

/-- The pixel `far` of the far end of a side is at most `2^31` pixels before the pixel `near` of the
near one. -/
theorem side_ge (hnear : pixelOf x = .ok near) (hwidth : width.OnGrid)
    (hfar : pixelOf (x.add width) = .ok far) : near.toInt - 2 ^ 31 ≤ far.toInt := by
  obtain ⟨a, ha, hnear, -⟩ := exists_units_between hnear
  obtain ⟨b, hb, hwidth, -⟩ := hwidth
  obtain ⟨sum, hsum, hfar⟩ := exists_units_of_pixelOf hfar
  rw [Binary64.units?_add ha hb] at hsum
  have hword := isWord32_toInt near
  unfold IsWord32 at hword
  have hbelow : (near.toInt - 2 ^ 31) * (Binary64.unitsPerOne : Int) ≤ a + b := by linarith
  rw [hfar]
  apply Int.le_ediv_of_mul_le Binary64.unitsPerOne_pos
  exact Binary64.le_of_le_units (Binary64.units?_ofInt (by omega)) hbelow hsum

/-- The pixel `far` of the far end of a side is at most `2^31` pixels behind the pixel `near` of the
near one, also after rounding the sum. -/
theorem side_le (hnear : pixelOf x = .ok near) (hwidth : width.OnGrid)
    (hfar : pixelOf (x.add width) = .ok far) : far.toInt ≤ near.toInt + 2 ^ 31 := by
  have hnear_word := isWord32_toInt near
  have hfar_word := isWord32_toInt far
  unfold IsWord32 at hnear_word hfar_word
  -- A pixel is below `2^31` itself, so the near end may be taken to be negative.
  rcases Int.lt_or_le near.toInt 0 with hneg | hnonneg
  case inr => omega
  obtain ⟨a, ha, -, hnear⟩ := exists_units_between hnear
  obtain ⟨b, hb, -, hwidth⟩ := hwidth
  obtain ⟨sum, hsum, hfar⟩ := exists_units_of_pixelOf hfar
  rw [Binary64.units?_add ha hb] at hsum
  -- A step is `2^-22`, and `2^31` is `2^53` of them.
  obtain ⟨e, he⟩ : ∃ e, 1074 = 22 + e := ⟨1052, rfl⟩
  have hone : (Binary64.unitsPerOne : Int) = 2 ^ 22 * (2 ^ e : Nat) := by
    rw [Binary64.unitsPerOne_eq he, Nat.pow_add]
    rfl
  rw [hone] at hnear hwidth hfar
  have hpos : (0 : Int) < (2 ^ e : Nat) := Int.natCast_pos.mpr (Nat.two_pow_pos e)
  have hstep : b + (2 ^ e : Nat) ≤ 2 ^ 53 * (2 ^ e : Nat) := Binary64.add_le_of_lt hb (by linarith)
  -- The exact sum is at most a number that is itself a step below the integer in question.
  have habove : a + b ≤ ((near.toInt + 1) * 2 ^ 22 + 2 ^ 53 - 1) * (2 ^ e : Nat) := by linarith
  have hrounded : sum ≤ ((near.toInt + 1) * 2 ^ 22 + 2 ^ 53 - 1) * (2 ^ e : Nat) :=
    Binary64.le_of_units_le
      (Binary64.units?_ofUnits_mul_two_pow (by omega) (by omega) (by omega)) habove hsum
  rw [hfar]
  apply Int.le_of_lt_add_one
  apply Int.ediv_lt_of_lt_mul (by linarith)
  linarith

/-! ## The extent of a side -/

/-- What a picture gives as the `extent` of a side between the pixel coordinates `a` and `b`: its
length, unless that is `2^31`. -/
structure IsExtentOf (extent a b : Pixel) : Prop where
  /-- No side is longer than `2^31`. -/
  length_le : (b.toInt - a.toInt).natAbs ≤ 2 ^ 31
  /-- Below that, the difference of the ends fits into 32 bits, and so does its size, which is the
  extent. -/
  exact : (b.toInt - a.toInt).natAbs < 2 ^ 31 →
    IsWord32 (b.toInt - a.toInt) ∧ extent.toInt = (b.toInt - a.toInt).natAbs
  /-- There is no 32-bit integer for the size of the longest side, and its extent is negative. -/
  overflow : (b.toInt - a.toInt).natAbs = 2 ^ 31 → extent.toInt = -2 ^ 31

/-- The `extent` between the two ends of a side of a rectangle is what a picture gives as its length
(`IsExtentOf`). -/
theorem isExtentOf_extent (hnear : pixelOf x = .ok near) (hwidth : width.OnGrid)
    (hfar : pixelOf (x.add width) = .ok far) :
    IsExtentOf (SvgElement.extent near far) near far := by
  have hge := side_ge hnear hwidth hfar
  have hle := side_le hnear hwidth hfar
  constructor
  · omega
  · intro hlt
    have hword : IsWord32 (far.toInt - near.toInt) := by
      unfold IsWord32
      omega
    have hsize : IsWord32 (far.toInt - near.toInt).natAbs := by
      unfold IsWord32
      omega
    refine ⟨hword, ?_⟩
    rw [SvgElement.toInt_extent, word_eq_self hword, word_eq_self hsize]
  · -- The longest side is `2^31` in either direction, and both sizes wrap around.
    intro heq
    rw [SvgElement.toInt_extent]
    obtain hlength | hlength :
        far.toInt - near.toInt = 2 ^ 31 ∨ far.toInt - near.toInt = -2 ^ 31 := by
      omega
    · rw [hlength]
      decide
    · rw [hlength]
      decide

/-! ## Rectangles of a session -/

/-- A turn `t` that is done adds the `element` of its `call` to the picture, behind the others. -/
theorem Turn.elements_after {t : Turn SvgPicture} {call : Call} {element : SvgElement}
    (hdone : t.isDone) (hcall : t.issued? = some call)
    (helement : SvgElement.ofCall? call = some element) :
    t.after.surface.elements = t.session.surface.elements ++ [element] := by
  obtain ⟨e, hobey, -, -, hdrawn⟩ := effect_of_isDone hdone
  obtain ⟨e', hobey', hcall⟩ := issued?_eq_some_iff.mp hcall
  obtain rfl := Except.ok.inj (hobey'.symm.trans hobey)
  rw [← Except.ok.inj (hdrawn call hcall)]
  simp only [SvgPicture.apply, helement]

namespace Session

/-- A rectangle that is done is an element of the picture, given by its least corner. Its sides are
at most `2^31` long, and the extents are their lengths, with no overflow, unless a side is just as
long as that: then its extent is `-2^31`. -/
theorem rectangles_are_normalised {t : Turn SvgPicture} {x y width height : Binary64}
    (haction : t.command.action = .drawRectangle x y width height) (hdone : t.isDone) :
    ∃ (b : Box) (outline : Color) (fill : Option Color) (strokeWidth : Int32)
      (left top w h : Pixel),
      t.issued? = some (.rectangle b outline fill strokeWidth) ∧
      (pixelOf x = .ok b.x1 ∧ pixelOf (x.add width) = .ok b.x2) ∧
      (pixelOf y = .ok b.y1 ∧ pixelOf (y.add height) = .ok b.y2) ∧
      t.after.surface.elements =
        t.session.surface.elements ++ [.rect left top w h outline fill strokeWidth] ∧
      left.toInt = min b.x1.toInt b.x2.toInt ∧ top.toInt = min b.y1.toInt b.y2.toInt ∧
      IsExtentOf w b.x1 b.x2 ∧ IsExtentOf h b.y1 b.y2 := by
  obtain ⟨e, hobey, -⟩ := Turn.effect_of_isDone hdone
  have hrectangle := hobey
  rw [haction] at hrectangle
  obtain ⟨x1, y1, x2, y2, w, h, hx1, hy1, hx2, hy2, hw, hh, he⟩ :=
    Pen.drawRectangle_eq_ok_iff.mp hrectangle
  -- The call of the turn and the numbers of its outcome come from one effect.
  have hissued := Turn.issued?_eq_some_iff.mpr ⟨e, hobey, congrArg Effect.call he⟩
  refine ⟨⟨x1, y1, x2, y2⟩, _, _, _, _, _, _, _, hissued, ⟨hx1, hx2⟩, ⟨hy1, hy2⟩,
    Turn.elements_after hdone hissued rfl, ?_, ?_, ?_, ?_⟩
  · exact SvgElement.toInt_least x1 x2
  · exact SvgElement.toInt_least y1 y2
  · exact isExtentOf_extent hx1 (exists_pixelOf_eq_ok_iff.mp ⟨w, hw⟩) hx2
  · exact isExtentOf_extent hy1 (exists_pixelOf_eq_ok_iff.mp ⟨h, hh⟩) hy2

/-- The first turn of a session on a picture, which draws the rectangle. -/
def rectangleTurn (x y width height : Binary64) : Turn SvgPicture :=
  ⟨start ⟨800, 600, .ofName (ascii "white"), []⟩ {}, .drawRectangle x y width height, ⟨1, 0⟩⟩

/-- A rectangle to the left and upwards, with a fraction that is carried, has its lengths as
extents. -/
theorem rectangle_backwards_is_normalised :
    let t := rectangleTurn (.ofHalves 21) (.ofInt 4) (.ofHalves (-7)) (.ofInt (-9))
    let b : Box := ⟨10, 4, 7, -5⟩
    t.isDone ∧ t.issued? = some (.rectangle b .black none 2) ∧
      ∃ left top w h, t.after.surface.elements = [.rect left top w h .black none 2] ∧
        left = 7 ∧ top = -5 ∧ w = 3 ∧ h = 9 := by
  intro t b
  have hdone : t.isDone := by decide +kernel
  have hissued : t.issued? = some (.rectangle b .black none 2) := by decide +kernel
  obtain ⟨b', outline, fill, strokeWidth, left, top, w, h, hissued', -, -, helements, hleft, htop,
    hw, hh⟩ := rectangles_are_normalised (t := t) rfl hdone
  obtain ⟨rfl, rfl, rfl, rfl⟩ := Call.rectangle.inj (Option.some.inj (hissued'.symm.trans hissued))
  refine ⟨hdone, hissued, left, top, w, h, helements, ?_, ?_, ?_, ?_⟩
  · exact Int32.toInt_inj.mp hleft
  · exact Int32.toInt_inj.mp htop
  · exact Int32.toInt_inj.mp (hw.exact (by decide)).2
  · exact Int32.toInt_inj.mp (hh.exact (by decide)).2

/-- Two rectangles that are done with a negative width. The first goes `2^31` pixels to the left of
the first pixel, and the size of that has no 32-bit integer. The second goes as far to the right of
the pixel before the first, and there the difference has none. -/
theorem rectangle_of_negative_width :
    let toLeft := rectangleTurn .zero .zero (.ofInt (-2 ^ 31)) (.ofInt 1)
    let toRight := rectangleTurn (.ofHalves (-1)) .zero (.ofHalves (2 ^ 32 - 1)) (.ofInt 1)
    (toLeft.isDone ∧ toLeft.issued? = some (.rectangle ⟨0, 0, -2 ^ 31, 1⟩ .black none 2) ∧
      toLeft.after.surface.elements = [.rect (-2 ^ 31) 0 (-2 ^ 31) 1 .black none 2]) ∧
    (toRight.isDone ∧
      toRight.issued? = some (.rectangle ⟨-1, 0, 2 ^ 31 - 1, 1⟩ .black none 2) ∧
      toRight.after.surface.elements = [.rect (-1) 0 (-2 ^ 31) 1 .black none 2] ∧
      ¬ IsWord32 ((2 ^ 31 - 1 : Pixel).toInt - (-1 : Pixel).toInt)) := by
  decide +kernel

end Session

end Sketch
