import Sketch.Pen

/-!
# When a command has an effect

The pen draws and moves only once all its coordinates have become pixels. For each kind of command
that takes coordinates there is one lemma, which says when the command has an effect, and which one
(`Pen.drawLine_eq_ok_iff`, `Pen.drawCircle_eq_ok_iff`, `Pen.drawRectangle_eq_ok_iff`,
`Pen.move_eq_ok_iff`). Which kind of call an effect has is up to the action and to whether the pen
is down (`Pen.kind_of_obey`).
-/

namespace Sketch

/-- An effect `e` that needs the pixel of `x` first comes about if there is that pixel `p` and
`next p` gives the effect. -/
theorem pixelOf_bind_eq_ok_iff {x : Binary64} {next : Pixel → Except Fault Effect} {e : Effect} :
    pixelOf x >>= next = .ok e ↔ ∃ p, pixelOf x = .ok p ∧ next p = .ok e := by
  cases pixelOf x <;> simp [bind, Except.bind]

namespace Pen

variable {p : Pen} {e : Effect}

/-- A line has an effect `e` if its two points have pixels. It is drawn between these, and `follow`
takes the pen to the second point. -/
theorem drawLine_eq_ok_iff {x1 y1 x2 y2 : Binary64} :
    p.drawLine x1 y1 x2 y2 = .ok e ↔ ∃ px1 py1 px2 py2,
      pixelOf x1 = .ok px1 ∧ pixelOf y1 = .ok py1 ∧ pixelOf x2 = .ok px2 ∧ pixelOf y2 = .ok py2 ∧
      e = ⟨some (.line ⟨px1, py1, px2, py2⟩ p.color p.strokeWidth), p.follow x2 y2,
        .drewLine px1 py1 px2 py2⟩ := by
  simp only [drawLine, pixelOf_bind_eq_ok_iff, Except.ok.injEq]
  constructor
  · rintro ⟨px1, hx1, py1, hy1, px2, hx2, py2, hy2, rfl⟩
    exact ⟨px1, py1, px2, py2, hx1, hy1, hx2, hy2, rfl⟩
  · rintro ⟨px1, py1, px2, py2, hx1, hy1, hx2, hy2, rfl⟩
    exact ⟨px1, hx1, py1, hy1, px2, hx2, py2, hy2, rfl⟩

/-- A circle has an effect `e` if the four sides of the box around it have pixels, and its center
and radius too. It is drawn in that box. -/
theorem drawCircle_eq_ok_iff {x y radius : Binary64} :
    p.drawCircle x y radius = .ok e ↔ ∃ left top right bottom cx cy r,
      pixelOf (x.sub radius) = .ok left ∧ pixelOf (y.sub radius) = .ok top ∧
      pixelOf (x.add radius) = .ok right ∧ pixelOf (y.add radius) = .ok bottom ∧
      pixelOf x = .ok cx ∧ pixelOf y = .ok cy ∧ pixelOf radius = .ok r ∧
      e = ⟨some (.ellipse ⟨left, top, right, bottom⟩ p.color p.fill p.strokeWidth), p.follow x y,
        .drewCircle cx cy r⟩ := by
  simp only [drawCircle, pixelOf_bind_eq_ok_iff, Except.ok.injEq]
  constructor
  · rintro ⟨left, hleft, top, htop, right, hright, bottom, hbottom, cx, hcx, cy, hcy, r, hr, rfl⟩
    exact ⟨left, top, right, bottom, cx, cy, r, hleft, htop, hright, hbottom, hcx, hcy, hr, rfl⟩
  · rintro ⟨left, top, right, bottom, cx, cy, r, hleft, htop, hright, hbottom, hcx, hcy, hr, rfl⟩
    exact ⟨left, hleft, top, htop, right, hright, bottom, hbottom, cx, hcx, cy, hcy, r, hr, rfl⟩

/-- A rectangle has an effect `e` if its two corners have pixels, and its width and height too. It
is drawn between the corners. -/
theorem drawRectangle_eq_ok_iff {x y width height : Binary64} :
    p.drawRectangle x y width height = .ok e ↔ ∃ left top right bottom w h,
      pixelOf x = .ok left ∧ pixelOf y = .ok top ∧ pixelOf (x.add width) = .ok right ∧
      pixelOf (y.add height) = .ok bottom ∧ pixelOf width = .ok w ∧ pixelOf height = .ok h ∧
      e = ⟨some (.rectangle ⟨left, top, right, bottom⟩ p.color p.fill p.strokeWidth),
        p.follow (x.add width) (y.add height), .drewRectangle left top w h⟩ := by
  simp only [drawRectangle, pixelOf_bind_eq_ok_iff, Except.ok.injEq]
  constructor
  · rintro ⟨left, hleft, top, htop, right, hright, bottom, hbottom, w, hw, h, hh, rfl⟩
    exact ⟨left, top, right, bottom, w, h, hleft, htop, hright, hbottom, hw, hh, rfl⟩
  · rintro ⟨left, top, right, bottom, w, h, hleft, htop, hright, hbottom, hw, hh, rfl⟩
    exact ⟨left, hleft, top, htop, right, hright, bottom, hbottom, w, hw, h, hh, rfl⟩

/-- A move has an effect `e` if its target has a pixel. The pixel of the pen itself is needed only
to draw from there, when `p.isDown`. -/
theorem move_eq_ok_iff {x y : Binary64} :
    p.move x y = .ok e ↔ ∃ px py, pixelOf x = .ok px ∧ pixelOf y = .ok py ∧
      (p.isDown ∧ (∃ left top, pixelOf p.x = .ok left ∧ pixelOf p.y = .ok top ∧
          e = ⟨some (.line ⟨left, top, px, py⟩ p.color p.strokeWidth), { p with x, y },
            .moved px py⟩) ∨
        p.isDown = false ∧ e = ⟨none, { p with x, y }, .moved px py⟩) := by
  simp only [move, pixelOf_bind_eq_ok_iff]
  refine ⟨?_, ?_⟩
  · rintro ⟨px, hx, py, hy, heffect⟩
    refine ⟨px, py, hx, hy, ?_⟩
    -- The pixel of the pen is asked for behind this test, so the cases split before it is looked
    -- at.
    by_cases hdown : p.isDown
    · simp only [if_pos hdown, pixelOf_bind_eq_ok_iff, Except.ok.injEq] at heffect
      obtain ⟨left, hleft, top, htop, rfl⟩ := heffect
      exact .inl ⟨hdown, left, top, hleft, htop, rfl⟩
    · rw [if_neg hdown, Except.ok.injEq] at heffect
      exact .inr ⟨by simpa using hdown, heffect.symm⟩
  · rintro ⟨px, py, hx, hy, ⟨hdown, left, top, hleft, htop, rfl⟩ | ⟨hup, rfl⟩⟩
    · refine ⟨px, hx, py, hy, ?_⟩
      simp only [if_pos hdown, pixelOf_bind_eq_ok_iff]
      exact ⟨left, hleft, top, htop, rfl⟩
    · refine ⟨px, hx, py, hy, ?_⟩
      -- With the pen up nothing is asked of its place.
      rw [if_neg (by simp [hup])]

/-- The kind of the call that an action makes on the surface. A `move` makes one if the pen `p` is
down. -/
def callKind? (p : Pen) : Action → Option CallKind
  | .drawLine .. => some .line
  | .drawCircle .. => some .ellipse
  | .drawRectangle .. => some .rectangle
  | .clear => some .clear
  | .move .. => if p.isDown then some .line else none
  | .setColor _ | .penUp | .penDown => none

/-- An effect `e` has a call of the kind `callKind?` that its action `a` makes, or none if the
action makes none. -/
theorem kind_of_obey {a : Action} (h : p.obey a = .ok e) :
    e.call.map Call.kind = p.callKind? a := by
  cases a with
  | drawLine x1 y1 x2 y2 =>
    obtain ⟨-, -, -, -, -, -, -, -, rfl⟩ := drawLine_eq_ok_iff.mp h
    rfl
  | drawCircle x y radius =>
    obtain ⟨-, -, -, -, -, -, -, -, -, -, -, -, -, -, rfl⟩ := drawCircle_eq_ok_iff.mp h
    rfl
  | drawRectangle x y width height =>
    obtain ⟨-, -, -, -, -, -, -, -, -, -, -, -, rfl⟩ := drawRectangle_eq_ok_iff.mp h
    rfl
  | move x y =>
    -- This is the one action whose kind of call depends on the pen.
    obtain ⟨-, -, -, -, ⟨hdown, -, -, -, -, rfl⟩ | ⟨hup, rfl⟩⟩ := move_eq_ok_iff.mp h
    · rw [callKind?, if_pos hdown]
      rfl
    · rw [callKind?, if_neg (by simp [hup])]
      rfl
  | setColor name | clear | penUp | penDown =>
    obtain rfl := Except.ok.inj h
    rfl

end Pen

end Sketch
