import Sketch.Proofs.SignificantDigits
import Sketch.Proofs.Views

/-!
# What the numbers of an ellipse say

A picture gives an ellipse by its center and its radii, and these are halves of integers that are
printed to six significant digits. `SvgElement.ellipses_to_six_digits` says what is read back: a
nearest value of six digits, which is the right one exactly if that has no more digits. This is so
if all coordinates are below 100000. Ellipses whose values are printed exactly are told apart by
their elements, since the attributes are found from the text of an element (`attributes_cons_inj`),
and the corners of a box from its center and its radii (`Box.normalised_eq`).
`SvgElement.ellipse_beyond_six_digits` is an ellipse whose center is moved, and two that have the
same element.
-/

namespace Sketch

/-! ## Attributes -/

/-- The value of the first attribute ends at its quote, so `a` is found from the text of the
attributes, whatever text `t` follows them. -/
theorem attributes_cons_inj {name : String} {a a' : Text} {as as' : List (String × Text)}
    {t t' : Text} (ha : Byte.quote ∉ a) (ha' : Byte.quote ∉ a')
    (h : attributes ((name, a) :: as) ++ t = attributes ((name, a') :: as') ++ t') :
    a = a' ∧ attributes as ++ t = attributes as' ++ t' := by
  have hcons : ∀ (b : Text) (bs : List (String × Text)) (u : Text),
      attributes ((name, b) :: bs) ++ u =
        ascii " " ++ ascii name ++ ascii "=\"" ++ (b ++ Byte.quote :: (attributes bs ++ u)) := by
    have hquote : ascii "\"" = [Byte.quote] := rfl
    intro b bs u
    simp [attributes, hquote]
  rw [hcons, hcons] at h
  exact Text.append_cons_inj ha ha' (List.append_cancel_left h)

/-- The text of two lists of attributes is that of the first, `as`, and behind it that of the
second, `bs`. -/
theorem attributes_append (as bs : List (String × Text)) :
    attributes (as ++ bs) = attributes as ++ attributes bs :=
  List.flatMap_append

/-- Attributes of the same names (`hnames`) without quotes in their values are found from their
text, whatever text `t` follows them. -/
theorem attributes_inj {as as' : List (String × Text)} (hnames : as.map Prod.fst = as'.map Prod.fst)
    (hquotes : ∀ a ∈ as, Byte.quote ∉ a.2) (hquotes' : ∀ a ∈ as', Byte.quote ∉ a.2) {t t' : Text}
    (h : attributes as ++ t = attributes as' ++ t') : as = as' := by
  induction as generalizing as' with
  | nil => exact (List.map_eq_nil_iff.mp hnames.symm).symm
  | cons a as ih =>
    cases as' with
    | nil => cases hnames
    | cons a' as' =>
      -- The names are the same in order, so the values are found one by one.
      obtain ⟨name, value⟩ := a
      obtain ⟨name', value'⟩ := a'
      obtain ⟨hname, hothers⟩ := List.cons.inj hnames
      obtain rfl : name = name' := hname
      obtain ⟨hvalue, hvalues⟩ := List.forall_mem_cons.mp hquotes
      obtain ⟨hvalue', hvalues'⟩ := List.forall_mem_cons.mp hquotes'
      obtain ⟨rfl, hrest⟩ := attributes_cons_inj hvalue hvalue' h
      rw [ih hothers hvalues hvalues' hrest]

/-! ## Boxes by their centers and radii -/

/-- Twice the radius that an ellipse has between the coordinates `a` and `b`. It is their distance,
but there is no 32-bit integer for one of `2^31`. -/
def diameter (a b : Pixel) : ℤ :=
  if b.toInt - a.toInt = -2 ^ 31 then -2 ^ 31 else (b.toInt - a.toInt).natAbs

/-- The size of a difference in 32 bits is the `diameter` of the two coordinates. -/
theorem word_natAbs_sub {a b : Pixel} (h : IsWord32 (b.toInt - a.toInt)) :
    word (b.toInt - a.toInt).natAbs = diameter a b := by
  rw [diameter]
  split
  case isTrue hleast =>
    rw [hleast]
    decide
  case isFalse hother =>
    exact word_eq_self (by unfold IsWord32 at *; omega)

/-- The least and the greatest of two pixels `a` and `b` are those of the integers that they hold.
-/
theorem toInt_min_max (a b : Pixel) :
    (min a b).toInt = min a.toInt b.toInt ∧ (max a b).toInt = max a.toInt b.toInt := by
  have hmin : min a b = if a ≤ b then a else b := rfl
  have hmax : max a b = if a ≤ b then b else a := rfl
  rw [hmin, hmax, min_def, max_def]
  simp only [Int32.le_iff_toInt_le]
  split <;> exact ⟨rfl, rfl⟩

/-- Two coordinates are known up to their order by their sum (`hsum`) and by their `diameter`. -/
theorem min_max_eq_of_diameter {a b a' b' : Pixel} (hsum : a.toInt + b.toInt = a'.toInt + b'.toInt)
    (hdiameter : diameter a b = diameter a' b') : min a b = min a' b' ∧ max a b = max a' b' := by
  obtain ⟨hmin, hmax⟩ := toInt_min_max a b
  obtain ⟨hmin', hmax'⟩ := toInt_min_max a' b'
  -- The distance of `2^31` is not mistaken for another one, since no distance is negative.
  have hdistance : (b.toInt - a.toInt).natAbs = (b'.toInt - a'.toInt).natAbs := by
    unfold diameter at hdiameter
    split at hdiameter <;> split at hdiameter <;> omega
  constructor
  · apply Int32.toInt_inj.mp
    omega
  · apply Int32.toInt_inj.mp
    omega

/-- Half of an integer `z` has at most a single digit after the point, so below `100000` it has six
digits. -/
theorem hasDigits_half {z : ℤ} (h : z.natAbs < 200000) : HasDigits 6 (z / 2) := by
  have habs : |5 * z| < 10 ^ 6 := by
    rw [abs_lt]
    omega
  refine ⟨5 * z, -1, habs, ?_⟩
  push_cast
  ring

namespace Box

/-- Twice the center and twice the radii of the ellipse in the box `b`, which are integers. -/
def doubles (b : Box) : List ℤ :=
  [b.x1.toInt + b.x2.toInt, b.y1.toInt + b.y2.toInt, diameter b.x1 b.x2, diameter b.y1 b.y2]

/-- The box `b` by its least and its greatest corner, which is all that its ellipse depends on. -/
def normalised (b : Box) : Box := ⟨min b.x1 b.x2, min b.y1 b.y2, max b.x1 b.x2, max b.y1 b.y2⟩

/-- A box `b` is known up to the order of its corners by its `doubles`, the center and the radii. -/
theorem normalised_eq {b b' : Box} (h : b.doubles = b'.doubles) : b.normalised = b'.normalised := by
  simp only [doubles, List.cons.injEq, and_true] at h
  obtain ⟨hx, hy, hwidth, hheight⟩ := h
  obtain ⟨hleft, hright⟩ := min_max_eq_of_diameter hx hwidth
  obtain ⟨htop, hbottom⟩ := min_max_eq_of_diameter hy hheight
  rw [normalised, normalised, hleft, hright, htop, hbottom]

/-- All coordinates of the box `b` are below the `bound` in size. -/
def IsWithin (bound : Nat) (b : Box) : Prop :=
  ∀ a ∈ [b.x1, b.y1, b.x2, b.y2], a.toInt.natAbs < bound

instance (bound : Nat) (b : Box) : Decidable (b.IsWithin bound) := List.decidableBAll _ _

/-- The center and the radii of the ellipse in the box `b` have at most six significant digits. -/
def IsExact (b : Box) : Prop := ∀ z ∈ b.doubles, HasDigits 6 (z / 2)

/-- Near the origin, within `100000`, the center and the radii of every box `b` have at most six
significant digits. -/
theorem isExact_of_isWithin {b : Box} (h : b.IsWithin 100000) : b.IsExact := by
  simp only [IsWithin, List.forall_mem_cons] at h
  obtain ⟨hx1, hy1, hx2, hy2, -⟩ := h
  simp only [IsExact, doubles, diameter, List.forall_mem_cons]
  refine ⟨hasDigits_half ?_, hasDigits_half ?_, hasDigits_half ?_, hasDigits_half ?_, ?_⟩
  · omega
  · omega
  · omega
  · omega
  · simp

end Box

/-! ## What is read back -/

/-- The text `t` is a decimal number that is read back as `z / 2`, rounded to six significant
digits. -/
structure PrintsHalf (t : Text) (z : ℤ) : Prop where
  printed : IsPrintedNumber t
  /-- No value of six digits is nearer. -/
  rounding : IsRounding 6 (z / 2) t.decimalValue
  /-- The value is the right one exactly if that has no more digits. -/
  exact_iff : t.decimalValue = z / 2 ↔ HasDigits 6 (z / 2)

/-- The double that holds half of an integer `z` exactly is printed to six digits (`PrintsHalf`). -/
theorem Binary64.printsHalf_ofHalves {z : ℤ} (h : z.natAbs < 2 ^ 53) :
    PrintsHalf (ofHalves z).text z := by
  obtain ⟨hprinted, hrounding⟩ := isRounding_ofHalves h
  exact ⟨hprinted, hrounding, hrounding.eq_iff⟩

/-- Halves `zs` that are printed exactly are found from their texts `ts`: other such halves with
these texts are the same. -/
theorem PrintsHalf.eq {ts : List Text} {zs zs' : List ℤ} (h : List.Forall₂ PrintsHalf ts zs)
    (h' : List.Forall₂ PrintsHalf ts zs') (hexact : ∀ z ∈ zs, HasDigits 6 (z / 2))
    (hexact' : ∀ z ∈ zs', HasDigits 6 (z / 2)) : zs = zs' := by
  induction h generalizing zs' with
  | nil =>
    cases h'
    rfl
  | @cons t z ts zs hz _ ih =>
    cases h' with
    | @cons _ z' _ zs' hz' hrest' =>
      obtain ⟨hdigits, hexact⟩ := List.forall_mem_cons.mp hexact
      obtain ⟨hdigits', hexact'⟩ := List.forall_mem_cons.mp hexact'
      -- One text denotes one number, and both halves are printed without loss.
      have hhalves : (z : ℚ) / 2 = z' / 2 :=
        (hz.exact_iff.mpr hdigits).symm.trans (hz'.exact_iff.mpr hdigits')
      have hcast : (z : ℚ) = z' := by linarith
      rw [Int.cast_injective hcast, ih hrest' hexact hexact']

namespace SvgElement

variable {b : Box} {outline : Color} {fill : Option Color} {strokeWidth : Int32}

/-- The attributes by which an ellipse is placed: its center and its two radii. -/
def placement (cx cy rx ry : Text) : List (String × Text) :=
  [("cx", cx), ("cy", cy), ("rx", rx), ("ry", ry)]

/-- The attributes by which a shape is painted: the color and the width of its outline, and the
color inside. -/
def paint (outline : Color) (fill : Option Color) (strokeWidth : Int32) : List (String × Text) :=
  [("stroke", outline.hex), ("stroke-width", .ofInt strokeWidth.toInt),
    ("fill", (fill.map Color.hex).getD (ascii "none"))]

/-- The element of an ellipse in range gives its center and its radii as texts that `PrintsHalf` the
box's `doubles`. -/
theorem exists_text_ellipse (h : (Call.ellipse b outline fill strokeWidth).InRange) :
    ∃ cx cy rx ry, (ofCall? (.ellipse b outline fill strokeWidth)).map text =
        some (markup "ellipse" (placement cx cy rx ry ++ paint outline fill strokeWidth)) ∧
      List.Forall₂ PrintsHalf [cx, cy, rx, ry] b.doubles := by
  have htext := text_ofCall? h
  obtain ⟨hx, hy, hwidth, hheight⟩ := h
  rw [Call.rendering?, word_natAbs_sub hwidth, word_natAbs_sub hheight] at htext
  -- Sums and differences of 32-bit integers have far fewer bits than a number holds.
  have hbits : ∀ z ∈ b.doubles, z.natAbs < 2 ^ 53 := by
    simp only [Box.doubles, List.forall_mem_cons, diameter, IsWord32] at *
    refine ⟨?_, ?_, ?_, ?_, ?_⟩
    · omega
    · omega
    · omega
    · omega
    · simp
  refine ⟨_, _, _, _, htext, ?_⟩
  exact List.forall₂_map_left_iff.mpr (List.forall₂_same.mpr fun z hz =>
    Binary64.printsHalf_ofHalves (hbits z hz))

/-- There are no quotes in the numbers of an ellipse, so its attributes can be told apart. -/
theorem quote_notMem_placement {cx cy rx ry : Text} {zs : List ℤ}
    (h : List.Forall₂ PrintsHalf [cx, cy, rx, ry] zs) :
    ∀ a ∈ placement cx cy rx ry, Byte.quote ∉ a.2 := by
  have hprinted : ∀ {t : Text}, t ∈ [cx, cy, rx, ry] → Byte.quote ∉ t := by
    intro t ht
    obtain ⟨i, hi, rfl⟩ := List.getElem_of_mem ht
    exact (h.get hi (h.length_eq ▸ hi)).printed.notMem rfl (by decide)
  simp only [placement, List.forall_mem_cons]
  exact ⟨hprinted (by simp), hprinted (by simp), hprinted (by simp), hprinted (by simp), by simp⟩

/-- The element of an ellipse gives the center and the radii of its box to six significant digits:
what is read back is a nearest value of so many digits, and the right one exactly if that has no
more. This is so if all coordinates are below 100000. Ellipses whose values all are printed exactly
have different elements if their boxes differ by more than the order of the corners. -/
theorem ellipses_to_six_digits (h : (Call.ellipse b outline fill strokeWidth).InRange) :
    (∃ cx cy rx ry, (ofCall? (.ellipse b outline fill strokeWidth)).map text =
        some (markup "ellipse" (placement cx cy rx ry ++ paint outline fill strokeWidth)) ∧
      List.Forall₂ PrintsHalf [cx, cy, rx, ry] b.doubles) ∧
    (b.IsWithin 100000 → b.IsExact) ∧
    ∀ (b' : Box) (outline' : Color) (fill' : Option Color) (strokeWidth' : Int32),
      (Call.ellipse b' outline' fill' strokeWidth').InRange → b.IsExact → b'.IsExact →
      (ofCall? (.ellipse b outline fill strokeWidth)).map text =
        (ofCall? (.ellipse b' outline' fill' strokeWidth')).map text →
      b.normalised = b'.normalised := by
  refine ⟨exists_text_ellipse h, Box.isExact_of_isWithin, ?_⟩
  intro b' outline' fill' strokeWidth' h' hexact hexact' hsame
  obtain ⟨cx, cy, rx, ry, htext, hhalves⟩ := exists_text_ellipse h
  obtain ⟨cx', cy', rx', ry', htext', hhalves'⟩ := exists_text_ellipse h'
  rw [htext, htext', Option.some.injEq, markup, markup] at hsame
  simp only [attributes_append, List.append_assoc] at hsame
  -- The paints may differ, so the texts are compared attribute by attribute, as far as the first
  -- four.
  have hplacement : placement cx cy rx ry = placement cx' cy' rx' ry' :=
    attributes_inj rfl (quote_notMem_placement hhalves) (quote_notMem_placement hhalves')
      (List.append_cancel_left (List.append_cancel_left hsame))
  have hnumbers : [cx, cy, rx, ry] = [cx', cy', rx', ry'] := congrArg (List.map Prod.snd) hplacement
  rw [← hnumbers] at hhalves'
  exact Box.normalised_eq (PrintsHalf.eq hhalves hhalves' hexact hexact')

/-- An ellipse from the lower right to the upper left is read back exactly, also the halves, and it
has the element of the ellipse from the upper left to the lower right. -/
theorem ellipse_of_half_radius_reads_back :
    let b : Box := ⟨450, 351, 350, 250⟩
    let b' : Box := ⟨350, 250, 450, 351⟩
    let call := Call.ellipse b .black none 2
    let call' := Call.ellipse b' .black none 2
    call.InRange ∧ call'.InRange ∧ b.IsWithin 100000 ∧ b.IsExact ∧
      ∃ cx cy rx ry, (ofCall? call).map text =
          some (markup "ellipse" (placement cx cy rx ry ++ paint .black none 2)) ∧
        cx.decimalValue = 400 ∧ cy.decimalValue = 601 / 2 ∧ rx.decimalValue = 50 ∧
        ry.decimalValue = 101 / 2 ∧
        (ofCall? call).map text = (ofCall? call').map text ∧ b.normalised = b'.normalised := by
  intro b b' call call'
  have hrange : call.InRange := by decide
  have hrange' : call'.InRange := by decide
  have hnear : b.IsWithin 100000 := by decide
  obtain ⟨⟨cx, cy, rx, ry, htext, hhalves⟩, hexact, htold⟩ := ellipses_to_six_digits hrange
  have hexact' : b'.IsExact := (ellipses_to_six_digits hrange').2.1 (by decide)
  have hsame : (ofCall? call).map text = (ofCall? call').map text := by decide +kernel
  -- Center and radii as doubled whole numbers, of which two are odd.
  have hdoubles : b.doubles = [800, 601, 100, 101] := by decide
  have hdigits := hexact hnear
  unfold Box.IsExact at hdigits
  rw [hdoubles] at hhalves hdigits
  simp only [List.forall₂_cons, List.forall_mem_cons] at hhalves hdigits
  obtain ⟨hcx, hcy, hrx, hry, -⟩ := hhalves
  obtain ⟨hcx', hcy', hrx', hry', -⟩ := hdigits
  refine ⟨hrange, hrange', hnear, hexact hnear, cx, cy, rx, ry, htext, ?_, ?_, ?_, ?_, hsame,
    htold b' .black none 2 hrange' (hexact hnear) hexact' hsame⟩
  · rw [hcx.exact_iff.mpr hcx']
    norm_num
  · rw [hcy.exact_iff.mpr hcy']
    norm_num
  · rw [hrx.exact_iff.mpr hrx']
    norm_num
  · rw [hry.exact_iff.mpr hry']
    norm_num

/-- An ellipse around 1234567 is placed around 1234570, and its element is that of the ellipse
around 1234568 as well. -/
theorem ellipse_beyond_six_digits :
    let b : Box := ⟨1234566, 0, 1234568, 2⟩
    let b' : Box := ⟨1234567, 0, 1234569, 2⟩
    let call := Call.ellipse b .black none 2
    let call' := Call.ellipse b' .black none 2
    call.InRange ∧ call'.InRange ∧
      (ofCall? call).map text = some (markup "ellipse"
        (placement (ascii "1.23457e+06") (ascii "1") (ascii "1") (ascii "1") ++ paint .black none 2)) ∧
      Text.decimalValue (ascii "1.23457e+06") = 1234570 ∧
      ((b.x1.toInt + b.x2.toInt : ℤ) : ℚ) / 2 = 1234567 ∧
      (ofCall? call).map text = (ofCall? call').map text ∧ b.normalised ≠ b'.normalised := by
  refine ⟨by decide, by decide, by decide +kernel, by decide +kernel, ?_, by decide +kernel,
    by decide⟩
  have hsum : (1234566 : Pixel).toInt + (1234568 : Pixel).toInt = 2469134 := by decide
  rw [hsum]
  norm_num

end SvgElement

end Sketch
