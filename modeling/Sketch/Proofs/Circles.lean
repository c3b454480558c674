import Mathlib.Tactic.Linarith
import Sketch.Proofs.Upright
import Sketch.Proofs.Views

/-!
# How large a circle may be

A circle is drawn as the ellipse in its box, and a picture finds the middle of the box and its
extents from sums and differences of 32-bit integers. The corners of the box are pixels, so each of
them fits into 32 bits, but that is not enough: `Session.circles_in_range` shows that the sums and
differences for a circle of a program fit as long as its center and its radius stay below `2^30`,
where the picture is exact, and that they do not fit beyond. `Session.circle_out_of_range` is such a
circle, which is reported as drawn.

In each direction the pixels of a circle are those of its center less its radius and of its center
plus its radius, up to what the floors and the rounding of the two results lose
(`spans_of_pixels`). Rounding loses nothing that matters because it keeps the order and the
integers.
-/

namespace Sketch

/-! ## The ends of a circle -/

/-- The ends `low` and `high` of a circle in one direction lie the `radius` before the `center` and
behind it, up to the fractions of both. -/
structure Spans (low high center radius : Int) : Prop where
  low_ge : center - radius - 1 ≤ low
  low_le : low ≤ center - radius + 1
  high_ge : center + radius ≤ high
  high_le : high ≤ center + radius + 2

/-- The sum of the ends of a circle is twice its `center`, up to the fractions of center and radius.
-/
theorem Spans.add {low high center radius : Int} (h : Spans low high center radius) :
    2 * center - 1 ≤ low + high ∧ low + high ≤ 2 * center + 3 := by
  obtain ⟨hlow, hlow', hhigh, hhigh'⟩ := h
  omega

/-- The difference of the ends of a circle is twice its `radius`, up to the fractions of center and
radius. -/
theorem Spans.sub {low high center radius : Int} (h : Spans low high center radius) :
    2 * radius - 1 ≤ high - low ∧ high - low ≤ 2 * radius + 3 := by
  obtain ⟨hlow, hlow', hhigh, hhigh'⟩ := h
  omega

/-- What lies between the integers `low` and `high` is rounded by `ofUnits` to a number whose floor
lies between them. -/
theorem Binary64.floor_ofUnits {low high z units : Int} (hlow : low.natAbs < 2 ^ 53)
    (hhigh : high.natAbs < 2 ^ 53) (hle : low * unitsPerOne ≤ z) (hge : z ≤ high * unitsPerOne)
    (h : (ofUnits z).units? = some units) :
    low ≤ units / unitsPerOne ∧ units / unitsPerOne ≤ high := by
  constructor
  · apply Int.le_ediv_of_mul_le unitsPerOne_pos
    exact le_of_le_units (units?_ofInt hlow) hle h
  · apply Int.ediv_le_of_le_mul unitsPerOne_pos
    exact le_of_units_le (units?_ofInt hhigh) hge h

/-- The pixels `low` and `high` of the ends of a circle in one direction, from the pixels `center`
and `r` of its center and its radius. -/
theorem spans_of_pixels {x radius : Binary64} {center r low high : Pixel}
    (hx : pixelOf x = .ok center) (hr : pixelOf radius = .ok r)
    (hlow : pixelOf (x.sub radius) = .ok low) (hhigh : pixelOf (x.add radius) = .ok high) :
    Spans low.toInt high.toInt center.toInt r.toInt := by
  -- The exact center and radius lie between their floors and the next integers.
  obtain ⟨a, ha, hca, hca'⟩ := exists_units_between hx
  obtain ⟨b, hb, hrb, hrb'⟩ := exists_units_between hr
  obtain ⟨difference, hdifference, hlow⟩ := exists_units_of_pixelOf hlow
  obtain ⟨sum, hsum, hhigh⟩ := exists_units_of_pixelOf hhigh
  rw [Binary64.units?_sub ha hb] at hdifference
  rw [Binary64.units?_add ha hb] at hsum
  have hword := isWord32_toInt center
  have hword' := isWord32_toInt r
  unfold IsWord32 at hword hword'
  rw [hlow, hhigh]
  generalize center.toInt = c at *
  generalize r.toInt = k at *
  generalize hunit : (Binary64.unitsPerOne : Int) = unit at *
  -- In units, each end lies within one pixel of where exact arithmetic would put it.
  have hbelow : (c - k - 1) * unit ≤ a - b := by linarith
  have habove : a - b ≤ (c - k + 1) * unit := by linarith
  have hbelow' : (c + k) * unit ≤ a + b := by linarith
  have habove' : a + b ≤ (c + k + 2) * unit := by linarith
  subst hunit
  obtain ⟨hlow_ge, hlow_le⟩ :=
    Binary64.floor_ofUnits (by omega) (by omega) hbelow habove hdifference
  obtain ⟨hhigh_ge, hhigh_le⟩ := Binary64.floor_ofUnits (by omega) (by omega) hbelow' habove' hsum
  exact ⟨hlow_ge, hlow_le, hhigh_ge, hhigh_le⟩

/-! ## The call for a circle -/

/-- The box is the one around a circle of the given center and radius, in both directions. -/
structure Box.Encloses (b : Box) (x y radius : Pixel) : Prop where
  x : Spans b.x1.toInt b.x2.toInt x.toInt radius.toInt
  y : Spans b.y1.toInt b.y2.toInt y.toInt radius.toInt

namespace Box.Encloses

variable {b : Box} {x y radius : Pixel} {outline : Color} {fill : Option Color}
  {strokeWidth : Int32}

/-- Nothing overflows for a circle whose center and `radius` are at most `2^30 - 2`: the call for it
is `InRange`. -/
theorem inRange (h : b.Encloses x y radius) (hx : 0 ≤ x) (hy : 0 ≤ y) (hradius : 0 ≤ radius)
    (hx' : x.toInt ≤ 2 ^ 30 - 2) (hy' : y.toInt ≤ 2 ^ 30 - 2)
    (hradius' : radius.toInt ≤ 2 ^ 30 - 2) :
    (Call.ellipse b outline fill strokeWidth).InRange := by
  have hsum := h.x.add
  have hsum' := h.y.add
  have hextent := h.x.sub
  have hextent' := h.y.sub
  rw [Int32.le_iff_toInt_le, Int32.toInt_zero] at hx hy hradius
  unfold Call.InRange IsWord32
  omega

/-- Something overflows if the center or the `radius` of the circle is above `2^30`. Between the two
bounds it depends on the fractions. -/
theorem le_of_inRange (h : b.Encloses x y radius)
    (hrange : (Call.ellipse b outline fill strokeWidth).InRange) :
    x.toInt ≤ 2 ^ 30 ∧ y.toInt ≤ 2 ^ 30 ∧ radius.toInt ≤ 2 ^ 30 := by
  have hsum := h.x.add
  have hsum' := h.y.add
  have hextent := h.x.sub
  unfold Call.InRange IsWord32 at hrange
  omega

end Box.Encloses

/-- A call for an ellipse, made by an action `a` without signs, is for a circle that the action
draws, and its box `b` encloses that circle. -/
theorem Pen.circle_of_obey {p : Pen} {a : Action} {e : Effect} {b : Box} {outline : Color}
    {fill : Option Color} {strokeWidth : Int32} (ha : a.Unsigned) (h : p.obey a = .ok e)
    (hcall : e.call = some (.ellipse b outline fill strokeWidth)) :
    ∃ x y radius, e.outcome = .drewCircle x y radius ∧ 0 ≤ x ∧ 0 ≤ y ∧ 0 ≤ radius ∧
      b.Encloses x y radius := by
  cases a with
  | drawCircle x y radius =>
    obtain ⟨left, top, right, bottom, cx, cy, r, hleft, htop, hright, hbottom, hx, hy, hr, rfl⟩ :=
      drawCircle_eq_ok_iff.mp h
    obtain ⟨rfl, -⟩ := Call.ellipse.inj (Option.some.inj hcall)
    obtain ⟨ux, uy, ur⟩ := Action.unsigned_drawCircle.mp ha
    exact ⟨cx, cy, r, rfl, (ux.nonneg hx).pixel hx, (uy.nonneg hy).pixel hy,
      (ur.nonneg hr).pixel hr, spans_of_pixels hx hr hleft hright,
      spans_of_pixels hy hr htop hbottom⟩
  -- No other action makes a call for an ellipse.
  | drawLine x1 y1 x2 y2 =>
    obtain ⟨_, _, _, _, -, -, -, -, rfl⟩ := drawLine_eq_ok_iff.mp h
    cases hcall
  | drawRectangle x y width height =>
    obtain ⟨_, _, _, _, _, _, -, -, -, -, -, -, rfl⟩ := drawRectangle_eq_ok_iff.mp h
    cases hcall
  | move x y =>
    obtain ⟨_, _, -, -, ⟨-, _, _, -, -, rfl⟩ | ⟨-, rfl⟩⟩ := move_eq_ok_iff.mp h
    · cases hcall
    · cases hcall
  | setColor | clear | penUp | penDown =>
    obtain rfl := Except.ok.inj h
    cases hcall

/-! ## Circles of a session -/

variable {σ : Type} [Surface σ]

/-- A turn `t` that is done reports the outcome of the effect `e` that its command has. -/
theorem Turn.result_of_isDone {t : Turn σ} {e : Effect}
    (h : t.session.pen.obey t.command.action = .ok e) (hdone : t.isDone) :
    t.result = .done e.outcome := by
  obtain ⟨e', hobey, hresult, -⟩ := effect_of_isDone hdone
  obtain rfl := Except.ok.inj (hobey.symm.trans h)
  exact hresult

namespace Session

/-- An ellipse that a program has drawn is the one for a circle that is reported as drawn. Its sums
and differences fit into 32 bits, and the picture shows it exactly, if the center and the radius are
below `2^30` by more than one. They do not fit if one of these is above `2^30`. -/
theorem circles_in_range {s : Session σ} {source : Text} {cs : List Command}
    (h : Program.read false source = .ok cs) {t : Turn σ} (ht : t ∈ s.turns cs) {b : Box}
    {outline : Color} {fill : Option Color} {strokeWidth : Int32}
    (hissued : t.issued? = some (.ellipse b outline fill strokeWidth)) :
    let call : Call := .ellipse b outline fill strokeWidth
    ∃ x y radius : Pixel, (t.isDone → t.result = .done (.drewCircle x y radius)) ∧
      b.Encloses x y radius ∧
      (x.toInt ≤ 2 ^ 30 - 2 ∧ y.toInt ≤ 2 ^ 30 - 2 ∧ radius.toInt ≤ 2 ^ 30 - 2 → call.InRange) ∧
      (call.InRange → (SvgElement.ofCall? call).map SvgElement.text = call.rendering?) ∧
      (2 ^ 30 < x.toInt ∨ 2 ^ 30 < y.toInt ∨ 2 ^ 30 < radius.toInt → ¬ call.InRange) := by
  intro call
  obtain ⟨e, hobey, hcall⟩ := Turn.issued?_eq_some_iff.mp hissued
  -- The command of a turn is one of the program, so its numbers have no sign.
  have hmem : t.command ∈ cs := by
    rw [← map_command_turns s cs]
    exact List.mem_map_of_mem ht
  have hunsigned := Program.unsigned_of_read h t.command hmem
  obtain ⟨x, y, radius, houtcome, hx, hy, hradius, hencloses⟩ :=
    Pen.circle_of_obey hunsigned hobey hcall
  refine ⟨x, y, radius, fun hdone => ?_, hencloses, ?_, SvgElement.text_ofCall?, ?_⟩
  · rw [Turn.result_of_isDone hobey hdone, houtcome]
  · rintro ⟨hx', hy', hradius'⟩
    exact hencloses.inRange hx hy hradius hx' hy' hradius'
  · intro habove hrange
    have hle := hencloses.le_of_inRange hrange
    omega

/-- The turn of a circle near the first pixel. -/
def circleNearby : Turn Recording :=
  ⟨fresh, .drawCircle (.ofHalves 21) (.ofInt 20) (.ofInt 5), ⟨1, 0⟩⟩

/-- That circle is drawn in range, and a picture of it is exact. -/
theorem circle_nearby_in_range :
    let cs := [circleNearby.command]
    let call : Call := .ellipse ⟨5, 15, 15, 25⟩ .black none 2
    Program.read false (ascii "draw circle 10.5 20 5") = .ok cs ∧ circleNearby ∈ fresh.turns cs ∧
      circleNearby.issued? = some call ∧ circleNearby.result = .done (.drewCircle 10 20 5) ∧
      call.InRange ∧ (SvgElement.ofCall? call).map SvgElement.text = call.rendering? := by
  intro cs call
  have hread : Program.read false (ascii "draw circle 10.5 20 5") = .ok cs := by decide +kernel
  have hmem : circleNearby ∈ fresh.turns cs := List.mem_cons_self
  have hissued : circleNearby.issued? = some call := by decide +kernel
  have hresult : circleNearby.result = .done (.drewCircle 10 20 5) := by decide +kernel
  obtain ⟨x, y, radius, hdone, -, hrange, hexact, -⟩ := circles_in_range hread hmem hissued
  -- The numbers of the result fix those that the theorem speaks of.
  have hreported := hresult.symm.trans (hdone (Turn.isDone_iff.mpr ⟨_, hresult⟩))
  obtain ⟨rfl, rfl, rfl⟩ := Outcome.drewCircle.inj (Result.done.inj hreported)
  have hcall : call.InRange := hrange (by decide)
  exact ⟨hread, hmem, hissued, hresult, hcall, hexact hcall⟩

/-- A circle the ends of which have pixels. -/
def circleTooFar : Text := ascii "draw circle 1500000000 0 1"

/-- That circle is reported as drawn and is recorded. The sum of its ends overflows, and a picture
finds its middle to the left of the canvas. -/
theorem circle_out_of_range :
    let call : Call := .ellipse ⟨1499999999, -1, 1500000001, 1⟩ .black none 2
    fresh.Scripted ∧ (fresh.run circleTooFar).1.results = [.done (.drewCircle 1500000000 0 1)] ∧
      (fresh.run circleTooFar).2.surface.calls = [call] ∧ ¬ call.InRange ∧
      SvgElement.middle 1499999999 1500000001 = .ofInt (-647483648) := by
  intro call
  refine ⟨.start _ _ (by decide) (by decide), ?_, ?_, ?_, ?_⟩
  · decide +kernel
  · decide +kernel
  · decide
  · decide +kernel

end Session

end Sketch
