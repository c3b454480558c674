import Sketch.Proofs.Grid
import Sketch.Proofs.Monotone
import Sketch.Proofs.Path
import Sketch.Proofs.Unsigned

/-!
# Programs draw upright

Commands may have negative numbers, but programs do not. `Session.scripted_drawing_is_upright` shows
what follows for the sessions that nothing but programs draws in (`Session.Scripted`): the pen never
leaves the quadrant right of and below the first pixel, lines and rectangles lie in it, and the box
of an ellipse or a rectangle is given by its top left and its bottom right corner.

The invariant is that the place of the pen is not negative (`Pen.Nonneg`). What one command does is
said by `Pen.upright_of_obey`. It rests on the order of the corners before rounding, which rounding
and the step to a pixel keep (`Binary64.le_add`, `Binary64.sub_le`, `toInt_le_of_pixelOf`). Infinite
numbers have no pixel, so they stop a command.
-/

namespace Sketch

/-! ## Numbers and their pixels -/

namespace Binary64

variable {x y : Binary64} {a b units : Int}

/-- The number `x` is finite and not negative. The zero with a minus sign is among these. -/
def Nonneg (x : Binary64) : Prop := ∃ units, x.units? = some units ∧ 0 ≤ units

/-- The rounded sum of `x` and a number `y` that is not negative is no less than `x`. -/
theorem le_add (hx : x.units? = some a) (hy : y.units? = some b) (hb : 0 ≤ b)
    (h : (x.add y).units? = some units) : a ≤ units :=
  le_of_le_units hx (by omega) ((units?_add hx hy).symm.trans h)

/-- The rounded difference of `x` and a number `y` that is not negative is no more than `x`. -/
theorem sub_le (hx : x.units? = some a) (hy : y.units? = some b) (hb : 0 ≤ b)
    (h : (x.sub y).units? = some units) : units ≤ a :=
  le_of_units_le hx (by omega) ((units?_sub hx hy).symm.trans h)

/-- A 32-bit integer `n` that is not negative is held by `ofInt` as a number that is not negative.
-/
theorem nonneg_ofInt {n : Int32} (h : 0 ≤ n.toInt) : (ofInt n.toInt).Nonneg := by
  have hlt : n.toInt < 2 ^ 31 := Int32.toInt_lt n
  exact ⟨_, units?_ofInt (by omega), Int.mul_nonneg h (Int.le_of_lt unitsPerOne_pos)⟩

end Binary64

variable {x y : Binary64} {p q : Pixel} {a b : Int}

/-- A number `x` with a pixel `p` is finite, and `p` is the floor of its exact value. -/
theorem exists_units_of_pixelOf (h : pixelOf x = .ok p) :
    ∃ a, x.units? = some a ∧ p.toInt = a / Binary64.unitsPerOne := by
  have hpixel : x.pixel? = some p := by
    unfold pixelOf at h
    split at h
    · obtain rfl := Except.ok.inj h
      assumption
    · cases h
  unfold Binary64.pixel? Binary64.floor? at hpixel
  obtain ⟨_, hfloor, hword⟩ := Option.bind_eq_some_iff.mp hpixel
  obtain ⟨a, ha, rfl⟩ := Option.map_eq_some_iff.mp hfloor
  obtain ⟨⟨hlow, hhigh⟩, hp⟩ := Option.ite_none_right_eq_some.mp hword
  obtain rfl := Option.some.inj hp
  have hmax : Int32.maxValue.toInt < 2 ^ 31 := Int32.toInt_lt _
  exact ⟨a, ha, Int32.toInt_ofInt_of_le hlow (Int.lt_of_le_of_lt hhigh hmax)⟩

/-- A number `x` with a pixel `p` lies between `p` and the next pixel, and below the latter. -/
theorem exists_units_between (h : pixelOf x = .ok p) :
    ∃ a, x.units? = some a ∧ p.toInt * Binary64.unitsPerOne ≤ a ∧
      a < (p.toInt + 1) * Binary64.unitsPerOne := by
  obtain ⟨a, ha, hp⟩ := exists_units_of_pixelOf h
  have hone := Binary64.unitsPerOne_pos
  refine ⟨a, ha, ?_, ?_⟩
  · rw [hp]
    exact Int.ediv_mul_le a (Int.ne_of_gt hone)
  · rw [hp]
    exact Int.lt_ediv_add_one_mul_self a hone

/-- The pixels `p` and `q` of two numbers are in the order of the numbers, as the floor is monotone.
-/
theorem pixel_le_pixel (hx : x.units? = some a) (hy : y.units? = some b) (h : a ≤ b)
    (hp : pixelOf x = .ok p) (hq : pixelOf y = .ok q) : p ≤ q := by
  obtain ⟨a', ha', hp⟩ := exists_units_of_pixelOf hp
  obtain ⟨b', hb', hq⟩ := exists_units_of_pixelOf hq
  obtain rfl := Option.some.inj (hx.symm.trans ha')
  obtain rfl := Option.some.inj (hy.symm.trans hb')
  rw [Int32.le_iff_toInt_le, hp, hq]
  exact Int.ediv_le_ediv Binary64.unitsPerOne_pos h

namespace Binary64

/-- A number `x` without a sign that has a pixel is not negative, as having a pixel excludes
infinity. -/
theorem Unsigned.nonneg (h : x.Unsigned) (hp : pixelOf x = .ok p) : x.Nonneg := by
  obtain ⟨a, ha, -⟩ := exists_units_of_pixelOf hp
  exact ⟨a, ha, h.units_nonneg ha⟩

/-- The pixel `p` of a number `x` that is not negative is not negative. -/
theorem Nonneg.pixel (h : x.Nonneg) (hp : pixelOf x = .ok p) : 0 ≤ p := by
  obtain ⟨a, ha, hnonneg⟩ := h
  obtain ⟨a', ha', hp⟩ := exists_units_of_pixelOf hp
  obtain rfl := Option.some.inj (ha.symm.trans ha')
  rw [Int32.le_iff_toInt_le, hp]
  exact Int.ediv_nonneg hnonneg (Int.le_of_lt unitsPerOne_pos)

/-- The sum of numbers `x` and `y` that are not negative is not before `x`, and nor is its pixel `q`
before the pixel `p` of `x`. -/
theorem Nonneg.add (hx : x.Nonneg) (hy : y.Nonneg) (hp : pixelOf x = .ok p)
    (hq : pixelOf (x.add y) = .ok q) : (x.add y).Nonneg ∧ p ≤ q := by
  obtain ⟨a, ha, hnonneg⟩ := hx
  obtain ⟨b, hb, hb'⟩ := hy
  obtain ⟨sum, hsum, -⟩ := exists_units_of_pixelOf hq
  have hle : a ≤ sum := le_add ha hb hb' hsum
  exact ⟨⟨sum, hsum, Int.le_trans hnonneg hle⟩, pixel_le_pixel ha hsum hle hp hq⟩

/-- The ends `x.sub y` and `x.add y` of an interval around a number `x` have their pixels in order.
-/
theorem Nonneg.pixel_sub_le_pixel_add (hx : x.Nonneg) (hy : y.Nonneg)
    (hp : pixelOf (x.sub y) = .ok p) (hq : pixelOf (x.add y) = .ok q) : p ≤ q := by
  obtain ⟨a, ha, -⟩ := hx
  obtain ⟨b, hb, hb'⟩ := hy
  obtain ⟨difference, hdifference, -⟩ := exists_units_of_pixelOf hp
  obtain ⟨sum, hsum, -⟩ := exists_units_of_pixelOf hq
  have hlow : difference ≤ a := sub_le ha hb hb' hdifference
  have hhigh : a ≤ sum := le_add ha hb hb' hsum
  exact pixel_le_pixel hdifference hsum (Int.le_trans hlow hhigh) hp hq

end Binary64

/-! ## One command -/

/-- No coordinate of the box `b` is negative, so it lies below and to the right of the origin. -/
structure Box.Nonneg (b : Box) : Prop where
  x1 : 0 ≤ b.x1
  y1 : 0 ≤ b.y1
  x2 : 0 ≤ b.x2
  y2 : 0 ≤ b.y2

/-- The box `b` is given by its top left corner and its bottom right corner, in this order. -/
structure Box.Upright (b : Box) : Prop where
  x : b.x1 ≤ b.x2
  y : b.y1 ≤ b.y2

/-- A line has no negative coordinates, the box of an ellipse is upright, and the box of a rectangle
is both. The box of an ellipse may begin before the origin. -/
def Call.Upright : Call → Prop
  | .line b _ _ => b.Nonneg
  | .ellipse b _ _ _ => b.Upright
  | .rectangle b _ _ _ => b.Nonneg ∧ b.Upright
  | .clear => True

namespace Pen

/-- The place of the pen `p` is finite and not negative in both directions. This is the invariant of
programs. -/
structure Nonneg (p : Pen) : Prop where
  x : p.x.Nonneg
  y : p.y.Nonneg

variable {p : Pen} {e : Effect}

/-- A fresh pen, in the middle of a canvas of positive `width` and `height`, satisfies the invariant
`Pen.Nonneg`. -/
theorem start_nonneg {width height : Int32} (hwidth : 0 < width) (hheight : 0 < height)
    (strokeWidth : Int32) : (start width height strokeWidth).Nonneg := by
  have half_nonneg : ∀ n : Int32, 0 < n → 0 ≤ (n / 2).toInt := by
    intro n hn
    have hpos : 0 < n.toInt := Int32.lt_iff_toInt_lt.mp hn
    have hhalf : (n / 2).toInt = n.toInt.tdiv 2 := Int32.toInt_div_of_ne_right n 2 (by decide)
    rw [hhalf]
    exact Int.tdiv_nonneg (Int.le_of_lt hpos) (by decide)
  exact ⟨Binary64.nonneg_ofInt (half_nonneg width hwidth),
    Binary64.nonneg_ofInt (half_nonneg height hheight)⟩

/-- A pen `p` that follows to a place `x`, `y` that is not negative keeps the invariant, whether it
is down or up. -/
theorem Nonneg.follow (h : p.Nonneg) (hx : x.Nonneg) (hy : y.Nonneg) : (p.follow x y).Nonneg := by
  unfold Pen.follow
  split
  · exact ⟨hx, hy⟩
  · exact h

/-- An action `a` without signs keeps the invariant `Pen.Nonneg`, and the call that it makes is
upright. The sums and differences are those of rounded numbers. -/
theorem upright_of_obey {a : Action} (hp : p.Nonneg) (ha : a.Unsigned) (h : p.obey a = .ok e) :
    e.pen.Nonneg ∧ ∀ call ∈ e.call, call.Upright := by
  cases a with
  | drawLine x1 y1 x2 y2 =>
    obtain ⟨px1, py1, px2, py2, hx1, hy1, hx2, hy2, rfl⟩ := drawLine_eq_ok_iff.mp h
    obtain ⟨ux1, uy1, ux2, uy2⟩ := Action.unsigned_drawLine.mp ha
    have hx1' := ux1.nonneg hx1
    have hy1' := uy1.nonneg hy1
    have hx2' := ux2.nonneg hx2
    have hy2' := uy2.nonneg hy2
    refine ⟨hp.follow hx2' hy2', fun call hcall => ?_⟩
    obtain rfl := Option.mem_some.mp hcall
    exact ⟨hx1'.pixel hx1, hy1'.pixel hy1, hx2'.pixel hx2, hy2'.pixel hy2⟩
  -- The box is upright since rounding is monotone, also where the radius is lost in the center.
  | drawCircle x y radius =>
    obtain ⟨left, top, right, bottom, cx, cy, r, hleft, htop, hright, hbottom, hx, hy, hr, rfl⟩ :=
      drawCircle_eq_ok_iff.mp h
    obtain ⟨ux, uy, ur⟩ := Action.unsigned_drawCircle.mp ha
    have hx' := ux.nonneg hx
    have hy' := uy.nonneg hy
    have hr' := ur.nonneg hr
    refine ⟨hp.follow hx' hy', fun call hcall => ?_⟩
    obtain rfl := Option.mem_some.mp hcall
    exact ⟨hx'.pixel_sub_le_pixel_add hr' hleft hright, hy'.pixel_sub_le_pixel_add hr' htop hbottom⟩
  | drawRectangle x y width height =>
    obtain ⟨left, top, right, bottom, w, h, hleft, htop, hright, hbottom, hw, hh, rfl⟩ :=
      drawRectangle_eq_ok_iff.mp h
    obtain ⟨ux, uy, uwidth, uheight⟩ := Action.unsigned_drawRectangle.mp ha
    have hx' := ux.nonneg hleft
    have hy' := uy.nonneg htop
    -- The far corner is no nearer to the origin than the corner that is given.
    obtain ⟨hright', hwidth⟩ := hx'.add (uwidth.nonneg hw) hleft hright
    obtain ⟨hbottom', hheight⟩ := hy'.add (uheight.nonneg hh) htop hbottom
    refine ⟨hp.follow hright' hbottom', fun call hcall => ?_⟩
    obtain rfl := Option.mem_some.mp hcall
    exact ⟨⟨hx'.pixel hleft, hy'.pixel htop, hright'.pixel hright, hbottom'.pixel hbottom⟩,
      hwidth, hheight⟩
  | move x y =>
    obtain ⟨px, py, hx, hy, heffect⟩ := move_eq_ok_iff.mp h
    obtain ⟨ux, uy⟩ := Action.unsigned_move.mp ha
    have hx' := ux.nonneg hx
    have hy' := uy.nonneg hy
    obtain ⟨-, left, top, hleft, htop, rfl⟩ | ⟨-, rfl⟩ := heffect
    · -- The line starts at the pen, which is where the invariant is used.
      refine ⟨⟨hx', hy'⟩, fun call hcall => ?_⟩
      obtain rfl := Option.mem_some.mp hcall
      exact ⟨hp.x.pixel hleft, hp.y.pixel htop, hx'.pixel hx, hy'.pixel hy⟩
    · exact ⟨⟨hx', hy'⟩, by simp⟩
  | clear =>
    obtain rfl := Except.ok.inj h
    refine ⟨hp, fun call hcall => ?_⟩
    obtain rfl := Option.mem_some.mp hcall
    trivial
  | setColor | penUp | penDown =>
    obtain rfl := Except.ok.inj h
    exact ⟨⟨hp.x, hp.y⟩, by simp⟩

end Pen

/-! ## Commands in a session -/

variable {σ : Type}

namespace Turn

/-- The call that the command of the turn `t` makes on the surface, whether the surface takes it or
not. -/
def issued? (t : Turn σ) : Option Call :=
  match t.session.pen.obey t.command.action with
  | .ok e => e.call
  | .error _ => none

/-- The call that a turn `t` makes is the one that the pen's effect `e` asks for. -/
theorem issued?_eq_some_iff {t : Turn σ} {call : Call} : t.issued? = some call ↔
    ∃ e, t.session.pen.obey t.command.action = .ok e ∧ e.call = some call := by
  unfold issued?
  cases t.session.pen.obey t.command.action <;> simp

variable [Surface σ]

/-- The call that a recording keeps of the turn `t`: the one that it makes, if the turn is done. -/
def recorded? (t : Turn Recording) : Option Call := if t.isDone then t.issued? else none

/-- A turn `t` adds the call `t.recorded?`, if there is one, to the recording. -/
theorem calls_after (t : Turn Recording) :
    t.after.surface.calls = t.session.surface.calls ++ t.recorded?.toList := by
  by_cases hdone : t.isDone
  · obtain ⟨e, hobey, -, hcalls⟩ := exists_effect hdone
    have hissued : t.issued? = e.call := by rw [issued?, hobey]
    rw [recorded?, if_pos hdone, hissued, hcalls]
  · have hfault : Result.isFaultText t.result.text := by simpa [isDone] using hdone
    have hsame : t.after = t.session := Session.execute_of_isFaultText hfault
    rw [recorded?, if_neg hdone, hsame, Option.toList_none, List.append_nil]

/-- The pen satisfies `Pen.Nonneg` before the turn `t` and after it, and the call that is made is
upright. -/
structure Upright (t : Turn σ) : Prop where
  before : t.session.pen.Nonneg
  after : t.after.pen.Nonneg
  issued : ∀ call ∈ t.issued?, call.Upright

/-- The turn `t` of a command without signs is upright if the pen satisfies the invariant before it
(`hp`). -/
theorem upright {t : Turn σ} (hp : t.session.pen.Nonneg) (ha : t.command.action.Unsigned) :
    t.Upright := by
  refine ⟨hp, ?_, fun call hcall => ?_⟩
  · show (t.session.settle (t.session.pen.obey t.command.action)).2.pen.Nonneg
    obtain hsame | ⟨e, hobey, hpen⟩ :=
      Session.settle_pen_eq_or t.session (t.session.pen.obey t.command.action)
    · rw [hsame]
      exact hp
    · rw [hpen]
      exact (Pen.upright_of_obey hp ha hobey).1
  · obtain ⟨e, hobey, hissued⟩ := issued?_eq_some_iff.mp hcall
    exact (Pen.upright_of_obey hp ha hobey).2 call hissued

end Turn

namespace Session

variable [Surface σ]

/-- The calls that a recording keeps of the commands `cs` are those of their turns, in order, behind
the calls from before. -/
theorem calls_executeAll (s : Session Recording) (cs : List Command) :
    (s.executeAll cs).2.surface.calls =
      s.surface.calls ++ (s.turns cs).filterMap Turn.recorded? := by
  induction cs generalizing s with
  | nil => exact (List.append_nil _).symm
  | cons c cs ih =>
    have hturn : (s.execute c).2.surface.calls =
        s.surface.calls ++ (Turn.mk s c).recorded?.toList := (Turn.mk s c).calls_after
    rw [executeAll_cons, ih, hturn, turns, List.append_assoc, List.filterMap_cons]
    cases (Turn.mk s c).recorded? <;> rfl

/-- Commands `cs` without signs have upright turns and keep the invariant of the pen, by induction
from turn to turn. -/
theorem turns_upright {s : Session σ} {cs : List Command} (hp : s.pen.Nonneg)
    (hcs : ∀ c ∈ cs, c.action.Unsigned) :
    (∀ t ∈ s.turns cs, t.Upright) ∧ (s.executeAll cs).2.pen.Nonneg := by
  induction cs generalizing s with
  | nil => exact ⟨by simp [turns], hp⟩
  | cons c cs ih =>
    obtain ⟨hc, hcs⟩ := List.forall_mem_cons.mp hcs
    have hturn : (Turn.mk s c).Upright := Turn.upright hp hc
    obtain ⟨hturns, hlast⟩ := ih hturn.after hcs
    exact ⟨List.forall_mem_cons.mpr ⟨hturn, hturns⟩, hlast⟩

/-- The session comes about from a fresh one over a canvas of positive size by programs, by switches
of the fill mode, and by changes of the surface. Command lists from elsewhere are excluded. -/
inductive Scripted : Session σ → Prop where
  | start (surface : σ) (c : CanvasConfig) : 0 < Surface.width surface →
      0 < Surface.height surface → Scripted (.start surface c)
  | run {s : Session σ} (source : Text) : Scripted s → Scripted (s.run source).2
  | setFill {s : Session σ} (fills : Bool) : Scripted s → Scripted (s.setFill fills)
  /-- The owner of the surface changes it, as by arming a recording against a kind of calls. -/
  | change {s : Session σ} (surface : σ) : Scripted s → Scripted { s with surface }

/-- A program keeps the invariant `Pen.Nonneg` of a session, whether it is refused or read. -/
theorem run_nonneg {s : Session σ} (h : s.pen.Nonneg) (source : Text) :
    (s.run source).2.pen.Nonneg := by
  cases hread : Program.read false source with
  | error e =>
    rw [run_of_refusal hread]
    exact h
  | ok cs =>
    rw [(run_of_read hread s).2]
    exact (turns_upright h (Program.unsigned_of_read hread)).2

/-- The pen of a session `s` that only programs draw in satisfies the invariant, by induction on how
`s` comes about. -/
theorem Scripted.pen_nonneg {s : Session σ} (h : s.Scripted) : s.pen.Nonneg := by
  induction h with
  | start surface c hwidth hheight => exact Pen.start_nonneg hwidth hheight _
  | run source _ ih => exact run_nonneg ih source
  | setFill fills _ ih => exact ⟨ih.x, ih.y⟩
  | change surface _ ih => exact ih

/-- In a session that only programs draw in, the pen never has a negative coordinate, and every
call is upright: the pen starts a program in bounds, and it stays in bounds from command to command.
A recording gets upright calls only. -/
theorem scripted_drawing_is_upright :
    (∀ {σ : Type} [Surface σ] (s : Session σ), s.Scripted → s.pen.Nonneg ∧ ∀ source,
      (∀ e, Program.read false source = .error e → (s.run source).2 = s) ∧
      ∀ cs, Program.read false source = .ok cs →
        (s.run source).2 = (s.executeAll cs).2 ∧ ∀ t ∈ s.turns cs, t.Upright) ∧
    ∀ s : Session Recording, s.Scripted → ∀ source, ∃ added,
      (s.run source).2.surface.calls = s.surface.calls ++ added ∧ ∀ call ∈ added, call.Upright := by
  constructor
  · intro σ _ s h
    refine ⟨h.pen_nonneg, fun source => ⟨fun e he => ?_, fun cs hcs => ?_⟩⟩
    · rw [run_of_refusal he]
    · exact ⟨(run_of_read hcs s).2,
        (turns_upright h.pen_nonneg (Program.unsigned_of_read hcs)).1⟩
  · intro s h source
    cases hread : Program.read false source with
    | error e =>
      refine ⟨[], ?_, by simp⟩
      rw [run_of_refusal hread, List.append_nil]
    | ok cs =>
      refine ⟨(s.turns cs).filterMap Turn.recorded?, ?_, fun call hcall => ?_⟩
      · rw [(run_of_read hread s).2, calls_executeAll]
      · -- What is recorded of a turn is the call that it makes.
        obtain ⟨t, ht, hrecorded⟩ := List.mem_filterMap.mp hcall
        obtain ⟨-, hissued⟩ := Option.ite_none_right_eq_some.mp hrecorded
        have hturns := (turns_upright h.pen_nonneg (Program.unsigned_of_read hread)).1
        exact (hturns t ht).issued call hissued

/-- A rectangle, and a move back to the first pixel. -/
def rectangleAndBack : Text := ascii "draw rectangle 3.5 2 1.5 4\nmove 0 .5"

/-- A session that fills shapes, on a recording that is armed against lines. -/
def fillingAndArmed : Session Recording :=
  { (start (⟨800, 600, [], none⟩ : Recording) {}).setFill true with
    surface := ⟨800, 600, [], some (.line, ascii "jammed")⟩ }

/-- Of that program the rectangle is recorded. The line back is refused, and it is upright too. -/
theorem rectangle_and_back_are_upright :
    let s := fillingAndArmed
    let cs : List Command := [⟨.drawRectangle (.ofHalves 7) (.ofInt 2) (.ofHalves 3) (.ofInt 4),
      ⟨1, 0⟩⟩, ⟨.move .zero (.ofHalves 1), ⟨2, 0⟩⟩]
    let rectangle : Call := .rectangle ⟨3, 2, 5, 6⟩ .black (some .black) 2
    let line : Call := .line ⟨5, 6, 0, 0⟩ .black 2
    s.Scripted ∧ Program.read false rectangleAndBack = .ok cs ∧
      (s.turns cs).map Turn.issued? = [some rectangle, some line] ∧
      (s.run rectangleAndBack).2.surface.calls = [rectangle] ∧
      (∀ t ∈ s.turns cs, t.Upright) ∧
      ∀ call ∈ (s.run rectangleAndBack).2.surface.calls, call.Upright := by
  intro s cs rectangle line
  have hscripted : s.Scripted := .change _ (.setFill true (.start _ _ (by decide) (by decide)))
  have hread : Program.read false rectangleAndBack = .ok cs := by decide +kernel
  have hissued : (s.turns cs).map Turn.issued? = [some rectangle, some line] := by
    decide +kernel
  have hcalls : (s.run rectangleAndBack).2.surface.calls = [rectangle] := by decide +kernel
  obtain ⟨hgeneral, hrecording⟩ := scripted_drawing_is_upright
  obtain ⟨-, hturns⟩ := ((hgeneral s hscripted).2 rectangleAndBack).2 cs hread
  obtain ⟨added, hadded, hupright⟩ := hrecording s hscripted rectangleAndBack
  have hall : (s.run rectangleAndBack).2.surface.calls = added := hadded
  exact ⟨hscripted, hread, hissued, hcalls, hturns, hall ▸ hupright⟩

end Session

end Sketch
