import Sketch.Proofs.Atomicity
import Sketch.Proofs.Effects
import Sketch.Proofs.Exactness
import Sketch.Proofs.Requests
import Sketch.Surface.Svg

/-!
# The pen is always on a pixel

A number is on the grid if it is finite and lies between the ends of the 32-bit integers
(`Binary64.OnGrid`); these are the numbers that fall on a pixel (`Binary64.isSome_pixel?_iff`).
`Session.pen_never_at_fault` shows that the pen of a reachable session is on the grid, so that it is
never the pen that makes a move fail.

A command moves the pen only to numbers that it turned into pixels before (`Pen.obey_onGrid`).
Nothing else moves the pen, and it starts at an integer, which is exact (`Pen.start_onGrid`).
-/

namespace Sketch

namespace Binary64

/-- The number `x` is finite, and it lies from `-2^31` on and below `2^31`. -/
def OnGrid (x : Binary64) : Prop :=
  ∃ units, x.units? = some units ∧ -2 ^ 31 * (unitsPerOne : Int) ≤ units ∧
    units < 2 ^ 31 * (unitsPerOne : Int)

/-- The number `unitsPerOne` is positive as an integer, so that the floor of a quotient by it is
monotone. -/
theorem unitsPerOne_pos : (0 : Int) < unitsPerOne := by
  have hnat : 0 < unitsPerOne := by
    rw [unitsPerOne, Nat.one_shiftLeft]
    exact Nat.two_pow_pos 1074
  exact Int.natCast_pos.mpr hnat

/-- The numbers `x` on the grid are those that fall on a pixel. -/
theorem isSome_pixel?_iff {x : Binary64} : x.pixel?.isSome ↔ x.OnGrid := by
  cases hunits : x.units? with
  | none => simp [pixel?, floor?, OnGrid, hunits]
  | some units =>
    have hmin : Int32.minValue.toInt = -2 ^ 31 := rfl
    have hmax : Int32.maxValue.toInt = 2 ^ 31 - 1 := rfl
    have hlow : -2 ^ 31 ≤ units / unitsPerOne ↔ -2 ^ 31 * (unitsPerOne : Int) ≤ units :=
      Int.le_ediv_iff_mul_le unitsPerOne_pos
    have hhigh : units / unitsPerOne < 2 ^ 31 ↔ units < 2 ^ 31 * (unitsPerOne : Int) :=
      Int.ediv_lt_iff_lt_mul unitsPerOne_pos
    have hle : units / unitsPerOne ≤ 2 ^ 31 - 1 ↔ units / unitsPerOne < 2 ^ 31 := by omega
    simp only [pixel?, floor?, hunits, Option.map_some, Option.bind_some, hmin, hmax, hle, hlow,
      hhigh, OnGrid, Option.some.injEq, exists_eq_left']
    split <;> simp_all

/-- A 32-bit integer `n` is held by `ofInt` as a number on the grid. -/
theorem onGrid_ofInt (n : Int32) : (ofInt n.toInt).OnGrid := by
  have hlow : -2 ^ 31 ≤ n.toInt := Int32.le_toInt n
  have hhigh : n.toInt < 2 ^ 31 := Int32.toInt_lt n
  refine ⟨n.toInt * unitsPerOne, units?_ofInt (by omega), ?_, ?_⟩
  · exact Int.mul_le_mul_of_nonneg_right hlow (Int.le_of_lt unitsPerOne_pos)
  · exact Int.mul_lt_mul_of_pos_right hhigh unitsPerOne_pos

end Binary64

/-- A coordinate `x` is turned into a pixel by `pixelOf` exactly if it is on the grid. -/
theorem exists_pixelOf_eq_ok_iff {x : Binary64} : (∃ p, pixelOf x = .ok p) ↔ x.OnGrid := by
  rw [← Binary64.isSome_pixel?_iff, pixelOf]
  cases x.pixel? <;> simp

namespace Pen

/-- The place of the pen `p` is on the grid in both directions. This is the invariant of all
requests. -/
def OnGrid (p : Pen) : Prop := p.x.OnGrid ∧ p.y.OnGrid

variable {p : Pen} {x y : Binary64}

/-- A fresh pen, in the middle of a canvas, is on the grid, whatever `width` and `height` are. -/
theorem start_onGrid (width height strokeWidth : Int32) :
    (start width height strokeWidth).OnGrid :=
  ⟨Binary64.onGrid_ofInt _, Binary64.onGrid_ofInt _⟩

/-- A pen `p` that follows to a place on the grid stays on it, whether it is down or up. -/
theorem follow_onGrid (h : p.OnGrid) (hx : x.OnGrid) (hy : y.OnGrid) : (p.follow x y).OnGrid := by
  unfold follow
  split
  · exact ⟨hx, hy⟩
  · exact h

/-- A pen on the grid stays on it, whatever action `a` it obeys. -/
theorem obey_onGrid {a : Action} {e : Effect} (h : p.OnGrid) (hobey : p.obey a = .ok e) :
    e.pen.OnGrid := by
  -- A number is stored in the pen only after it has become a pixel.
  cases a with
  | drawLine x1 y1 x2 y2 =>
    obtain ⟨-, -, px2, py2, -, -, hx2, hy2, rfl⟩ := drawLine_eq_ok_iff.mp hobey
    exact follow_onGrid h (exists_pixelOf_eq_ok_iff.mp ⟨px2, hx2⟩)
      (exists_pixelOf_eq_ok_iff.mp ⟨py2, hy2⟩)
  | drawCircle x y radius =>
    obtain ⟨-, -, -, -, cx, cy, -, -, -, -, -, hx, hy, -, rfl⟩ := drawCircle_eq_ok_iff.mp hobey
    exact follow_onGrid h (exists_pixelOf_eq_ok_iff.mp ⟨cx, hx⟩)
      (exists_pixelOf_eq_ok_iff.mp ⟨cy, hy⟩)
  | drawRectangle x y width height =>
    obtain ⟨-, -, right, bottom, -, -, -, -, hright, hbottom, -, -, rfl⟩ :=
      drawRectangle_eq_ok_iff.mp hobey
    exact follow_onGrid h (exists_pixelOf_eq_ok_iff.mp ⟨right, hright⟩)
      (exists_pixelOf_eq_ok_iff.mp ⟨bottom, hbottom⟩)
  | move x y =>
    obtain ⟨px, py, hx, hy, heffect⟩ := move_eq_ok_iff.mp hobey
    have htarget : x.OnGrid ∧ y.OnGrid :=
      ⟨exists_pixelOf_eq_ok_iff.mp ⟨px, hx⟩, exists_pixelOf_eq_ok_iff.mp ⟨py, hy⟩⟩
    -- With a line or without one, the pen ends at the target.
    obtain ⟨-, -, -, -, -, rfl⟩ | ⟨-, rfl⟩ := heffect
    · exact htarget
    · exact htarget
  | setColor name | clear | penUp | penDown =>
    obtain rfl := Except.ok.inj hobey
    exact h

/-- A move of a pen on the grid (`h`) has an effect exactly if its target is on the grid. -/
theorem exists_move_eq_ok_iff (h : p.OnGrid) :
    (∃ e, p.move x y = .ok e) ↔ x.OnGrid ∧ y.OnGrid := by
  constructor
  · rintro ⟨e, he⟩
    obtain ⟨px, py, hx, hy, -⟩ := move_eq_ok_iff.mp he
    exact ⟨exists_pixelOf_eq_ok_iff.mp ⟨px, hx⟩, exists_pixelOf_eq_ok_iff.mp ⟨py, hy⟩⟩
  · rintro ⟨hx, hy⟩
    obtain ⟨px, hpx⟩ := exists_pixelOf_eq_ok_iff.mpr hx
    obtain ⟨py, hpy⟩ := exists_pixelOf_eq_ok_iff.mpr hy
    obtain ⟨left, hleft⟩ := exists_pixelOf_eq_ok_iff.mpr h.1
    obtain ⟨top, htop⟩ := exists_pixelOf_eq_ok_iff.mpr h.2
    cases hdown : p.isDown with
    | true =>
      exact ⟨_, move_eq_ok_iff.mpr ⟨px, py, hpx, hpy, .inl ⟨hdown, left, top, hleft, htop, rfl⟩⟩⟩
    | false => exact ⟨_, move_eq_ok_iff.mpr ⟨px, py, hpx, hpy, .inr ⟨hdown, rfl⟩⟩⟩

end Pen

/-- A recording `r` refuses a `call` exactly if it is armed against the kind of that call, with the
`message` it is armed with. -/
theorem Recording.draw_eq_error_iff {r : Recording} {call : Call} {message : Text} :
    Surface.draw r call = .error message ↔ r.refusal = some (call.kind, message) := by
  show r.record call = .error message ↔ _
  rw [record, refusal?]
  cases r.refusal with
  | none => simp
  | some refusal =>
    obtain ⟨kind, message'⟩ := refusal
    by_cases hkind : kind = call.kind
    · simp [hkind]
    · simp [hkind]

namespace Session

variable {σ : Type} [Surface σ] {s : Session σ} {x y : Binary64}

/-- The session `s` that settles an `effect` keeps its pen as it is or has it as the effect does. -/
theorem settle_pen_eq_or (s : Session σ) (effect : Except Fault Effect) :
    (s.settle effect).2.pen = s.pen ∨
      ∃ e, effect = .ok e ∧ (s.settle effect).2.pen = e.pen := by
  fun_cases settle s effect with
  | case1 => exact .inl rfl
  | case2 pen outcome => exact .inr ⟨_, rfl, rfl⟩
  | case3 => exact .inl rfl
  | case4 call pen outcome surface hd => exact .inr ⟨_, rfl, rfl⟩

/-- A command `c` keeps the pen of a session `s` on the grid, whether it fails or not. -/
theorem execute_onGrid (s : Session σ) (c : Command) (h : s.pen.OnGrid) :
    (s.execute c).2.pen.OnGrid := by
  obtain hsame | ⟨e, hobey, hpen⟩ := settle_pen_eq_or s (s.pen.obey c.action)
  · rw [execute, hsame]
    exact h
  · rw [execute, hpen]
    exact Pen.obey_onGrid h hobey

/-- A reachable session has its pen on the grid, by induction over its requests. -/
theorem Reachable.pen_onGrid (h : s.Reachable) : s.pen.OnGrid := by
  refine h.induction ?_ execute_onGrid ?_ ?_
  · exact fun surface c => Pen.start_onGrid _ _ _
  · exact fun s fills hpen => hpen
  · exact fun s surface hpen => hpen

/-- An `effect` fails to settle if there is none, or if the surface refuses its call. -/
theorem isFaultText_settle_iff {effect : Except Fault Effect} :
    Result.isFaultText (s.settle effect).1.text ↔ (¬ ∃ e, effect = .ok e) ∨
      ∃ e call message, effect = .ok e ∧ e.call = some call ∧
        Surface.draw s.surface call = .error message := by
  rw [Result.isFaultText_text_iff]
  fun_cases settle s effect with
  | case1 fault => simp
  | case2 pen outcome => simp
  | case3 call pen outcome message hd => simp [hd]
  | case4 call pen outcome surface hd => simp [hd]

/-- A move of a pen on the grid fails if its target is off the grid, or if the pen is down and the
surface `refuses` lines (`hline`). -/
theorem isFaultText_move_iff {refuses : Prop} (hpen : s.pen.OnGrid)
    (hline : ∀ box stroke width,
      (∃ message, Surface.draw s.surface (.line box stroke width) = .error message) ↔ refuses)
    (place : Position) :
    Result.isFaultText (s.execute ⟨.move x y, place⟩).1.text ↔
      ¬ x.OnGrid ∨ ¬ y.OnGrid ∨ s.pen.isDown ∧ refuses := by
  rw [execute, isFaultText_settle_iff]
  by_cases htarget : x.OnGrid ∧ y.OnGrid
  · obtain ⟨e, he⟩ := (Pen.exists_move_eq_ok_iff hpen).mpr htarget
    have hobey : s.pen.obey (.move x y) = .ok e := he
    -- The pen is on the grid, so with the target on it too a move goes through as far as the
    -- surface.
    obtain ⟨px, py, -, -, ⟨hdown, left, top, -, -, rfl⟩ | ⟨hup, rfl⟩⟩ :=
      Pen.move_eq_ok_iff.mp he
    · simp [hobey, htarget, hdown, ← hline ⟨left, top, px, py⟩ s.pen.color s.pen.strokeWidth]
    · simp [hobey, htarget, hup]
  · have hnone : ¬ ∃ e, s.pen.obey (.move x y) = .ok e :=
      mt (Pen.exists_move_eq_ok_iff hpen).mp htarget
    have hoff : ¬ x.OnGrid ∨ ¬ y.OnGrid := not_and_or.mp htarget
    exact iff_of_true (.inl hnone) (hoff.imp_right .inl)

/-- A recording `r` refuses a line exactly if it is armed against lines, whatever the line is. -/
theorem draw_line_eq_error_iff (r : Recording) (box : Box) (stroke : Color) (width : Int32) :
    (∃ message, Surface.draw r (.line box stroke width) = .error message) ↔
      ∃ message, r.refusal = some (.line, message) :=
  exists_congr fun _ => Recording.draw_eq_error_iff

/-- The pen of a reachable session is on the grid, so it has its pixels. A move can fail only for
its own target, or because the pen is down and the surface refuses lines: a recording does so if it
is armed against them, and a picture never does. -/
theorem pen_never_at_fault :
    (∀ {σ : Type} [Surface σ] (s : Session σ), s.Reachable →
      (s.pen.x.OnGrid ∧ s.pen.y.OnGrid) ∧
      (∃ px, pixelOf s.pen.x = .ok px) ∧ ∃ py, pixelOf s.pen.y = .ok py) ∧
    (∀ s : Session Recording, s.Reachable → ∀ x y place,
      Result.isFaultText (s.execute ⟨.move x y, place⟩).1.text ↔
        ¬ x.OnGrid ∨ ¬ y.OnGrid ∨
          s.pen.isDown ∧ ∃ message, s.surface.refusal = some (.line, message)) ∧
    ∀ s : Session SvgPicture, s.Reachable → ∀ x y place,
      Result.isFaultText (s.execute ⟨.move x y, place⟩).1.text ↔ ¬ x.OnGrid ∨ ¬ y.OnGrid := by
  refine ⟨?_, ?_, ?_⟩
  · intro σ _ s h
    have hpen := h.pen_onGrid
    exact ⟨hpen, exists_pixelOf_eq_ok_iff.mpr hpen.1, exists_pixelOf_eq_ok_iff.mpr hpen.2⟩
  · intro s h x y place
    exact isFaultText_move_iff h.pen_onGrid (draw_line_eq_error_iff s.surface) place
  · intro s h x y place
    -- A picture takes every call, so that the last of the three causes falls away.
    have hline : ∀ box stroke width,
        (∃ message, Surface.draw s.surface (.line box stroke width) = .error message) ↔ False :=
      fun box stroke width => by simp [Surface.draw]
    rw [isFaultText_move_iff h.pen_onGrid hline place, and_false, or_false]

/-- A session whose pen went below the first row before its recording was armed against lines. -/
def jammed : Session Recording :=
  let below : Command := ⟨.drawLine .zero .zero (.ofInt 5) (.ofInt (-7)), ⟨1, 0⟩⟩
  let astray : Command := ⟨.drawCircle (.ofInt 9) .nan .zero, ⟨2, 0⟩⟩
  let fresh : Session Recording := start ⟨800, 600, [], none⟩ {}
  let s := (fresh.ask (.runCommands [below, astray])).2
  { s with surface := s.surface.refuse .line (ascii "jammed") }

/-- Its pen is on the grid, and a move to the first pixel fails because of the recording. On a
picture that move is carried out, and a move to what is not a number fails. -/
theorem jammed_move_fails :
    jammed.Reachable ∧ (jammed.pen.x, jammed.pen.y) = (.ofInt 5, .ofInt (-7)) ∧
      jammed.pen.x.OnGrid ∧ jammed.pen.y.OnGrid ∧
      Result.isFaultText (jammed.execute ⟨.move .zero .zero, ⟨3, 0⟩⟩).1.text ∧
    let picture : Session SvgPicture := start ⟨800, 600, .black, []⟩ {}
    picture.Reachable ∧ Result.isFaultText (picture.execute ⟨.move .zero .nan, ⟨1, 0⟩⟩).1.text ∧
      ¬ Result.isFaultText (picture.execute ⟨.move .zero .zero, ⟨1, 0⟩⟩).1.text := by
  have hreachable : jammed.Reachable := .change _ (.ask _ (.start _ _))
  have hplace : (jammed.pen.x, jammed.pen.y) = (.ofInt 5, .ofInt (-7)) := by decide +kernel
  have hdown : jammed.pen.isDown := by decide +kernel
  have harmed : jammed.surface.refusal = some (.line, ascii "jammed") := rfl
  have hzero : Binary64.zero.OnGrid := Binary64.isSome_pixel?_iff.mp (by decide +kernel)
  have hnan : ¬ Binary64.nan.OnGrid := mt Binary64.isSome_pixel?_iff.mpr (by decide +kernel)
  obtain ⟨hpen, hrecording, hpicture⟩ := pen_never_at_fault
  have hfresh := hpicture (start ⟨800, 600, .black, []⟩ {}) (.start _ _)
  refine ⟨hreachable, hplace, (hpen jammed hreachable).1.1, (hpen jammed hreachable).1.2, ?_,
    .start _ _, ?_, ?_⟩
  · exact (hrecording jammed hreachable _ _ _).mpr (.inr (.inr ⟨hdown, _, harmed⟩))
  · exact (hfresh _ _ _).mpr (.inr hnan)
  · exact mt (hfresh _ _ _).mp (by simp [hzero])

end Session

end Sketch
