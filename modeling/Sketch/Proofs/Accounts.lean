import Sketch.Proofs.Faults
import Sketch.Proofs.Upright

/-!
# Results and calls give the same account

A run leaves two records of itself, the texts of its results and the calls on the recording.
`Session.results_accord_with_calls` shows that they belong together: the calls are those of the
commands that are done, in order, each of the kind that its command asks for, with the numbers that
the text of its result gives, in the color set last and in the stroke width of the settings.

Which text goes with which call is said by `Accords`, word for word, and what one action does by
`Pen.account_of_obey`. The box of a circle is found from its center and radius by rounded
differences and sums, and a circle whose radius is not negative has its center in the box all the
same, since rounding keeps the order (`center_between`).
-/

namespace Sketch

/-- The color and the width that a call draws with. Wiping the surface (`clear`) has none. -/
def Call.stroke? : Call → Option (Color × Int32)
  | line _ stroke strokeWidth => some (stroke, strokeWidth)
  | ellipse _ outline _ strokeWidth | rectangle _ outline _ strokeWidth =>
    some (outline, strokeWidth)
  | clear => none

/-- The text of a success and its call give the same numbers. The text of a line has both points
`(b.x1, b.y1)` and `(b.x2, b.y2)` of its box `b`, that of a move has the end `(b.x2, b.y2)` of its
line, and that of a rectangle has the first corner `(b.x1, b.y1)`. The center `(cx, cy)` in the text
of a circle lies in the box of its ellipse, unless the radius `r` there is negative. -/
inductive Accords : Action → Text → Call → Prop where
  | line (b : Box) {x1 y1 x2 y2 : Binary64} {stroke : Color} {strokeWidth : Int32} :
      Accords (.drawLine x1 y1 x2 y2)
        (ascii "Drew line from (" ++ Text.ofInt b.x1.toInt ++ ascii ", " ++ Text.ofInt b.y1.toInt ++
          ascii ") to (" ++ Text.ofInt b.x2.toInt ++ ascii ", " ++ Text.ofInt b.y2.toInt ++
          ascii ")")
        (.line b stroke strokeWidth)
  | circle {x y radius : Binary64} {cx cy r : Pixel} {b : Box} {outline : Color}
      {fill : Option Color} {strokeWidth : Int32} :
      (0 ≤ r → (b.x1 ≤ cx ∧ cx ≤ b.x2) ∧ b.y1 ≤ cy ∧ cy ≤ b.y2) →
      Accords (.drawCircle x y radius)
        (ascii "Drew circle at (" ++ Text.ofInt cx.toInt ++ ascii ", " ++ Text.ofInt cy.toInt ++
          ascii ") with radius " ++ Text.ofInt r.toInt)
        (.ellipse b outline fill strokeWidth)
  | rectangle (b : Box) {x y width height : Binary64} {w h : Pixel} {outline : Color}
      {fill : Option Color} {strokeWidth : Int32} :
      Accords (.drawRectangle x y width height)
        (ascii "Drew rectangle at (" ++ Text.ofInt b.x1.toInt ++ ascii ", " ++
          Text.ofInt b.y1.toInt ++ ascii ") with size " ++ Text.ofInt w.toInt ++ ascii "x" ++
          Text.ofInt h.toInt)
        (.rectangle b outline fill strokeWidth)
  | move (b : Box) {x y : Binary64} {stroke : Color} {strokeWidth : Int32} :
      Accords (.move x y)
        (ascii "Pen moved to (" ++ Text.ofInt b.x2.toInt ++ ascii ", " ++ Text.ofInt b.y2.toInt ++
          ascii ")")
        (.line b stroke strokeWidth)
  | clear : Accords .clear (ascii "Canvas cleared") .clear

/-! ## The words of an outcome -/

namespace Outcome

variable {x y x1 y1 x2 y2 radius width height : Pixel}

/-- Words that end in an opening bracket lead over to the first number of a point, as `point` puts
the bracket itself. -/
theorem append_point (words : Text) : words ++ point x y =
    words ++ ascii "(" ++ Text.ofInt x.toInt ++ ascii ", " ++ Text.ofInt y.toInt ++ ascii ")" := by
  simp only [point, List.append_assoc]

/-- The text of `drewLine` gives its two points, from `(x1, y1)` to `(x2, y2)`. -/
theorem text_drewLine : (drewLine x1 y1 x2 y2).text =
    ascii "Drew line from (" ++ Text.ofInt x1.toInt ++ ascii ", " ++ Text.ofInt y1.toInt ++
      ascii ") to (" ++ Text.ofInt x2.toInt ++ ascii ", " ++ Text.ofInt y2.toInt ++ ascii ")" := by
  have hfrom : ascii "Drew line from (" = ascii "Drew line from " ++ ascii "(" := rfl
  have hto : ascii ") to (" = ascii ")" ++ ascii " to " ++ ascii "(" := rfl
  rw [text, append_point, append_point, hfrom, hto]
  simp only [List.append_assoc]

/-- The text of `drewCircle` gives the center `(x, y)`, and then the `radius`. -/
theorem text_drewCircle : (drewCircle x y radius).text =
    ascii "Drew circle at (" ++ Text.ofInt x.toInt ++ ascii ", " ++ Text.ofInt y.toInt ++
      ascii ") with radius " ++ Text.ofInt radius.toInt := by
  have hat : ascii "Drew circle at (" = ascii "Drew circle at " ++ ascii "(" := rfl
  have hwith : ascii ") with radius " = ascii ")" ++ ascii " with radius " := rfl
  rw [text, append_point, hat, hwith]
  simp only [List.append_assoc]

/-- The text of `drewRectangle` gives the corner `(x, y)`, and then the size as `width` and
`height`. -/
theorem text_drewRectangle : (drewRectangle x y width height).text =
    ascii "Drew rectangle at (" ++ Text.ofInt x.toInt ++ ascii ", " ++ Text.ofInt y.toInt ++
      ascii ") with size " ++ Text.ofInt width.toInt ++ ascii "x" ++ Text.ofInt height.toInt := by
  have hat : ascii "Drew rectangle at (" = ascii "Drew rectangle at " ++ ascii "(" := rfl
  have hwith : ascii ") with size " = ascii ")" ++ ascii " with size " := rfl
  rw [text, append_point, hat, hwith]
  simp only [List.append_assoc]

/-- The text of `moved` gives the point `(x, y)` that the pen has come to. -/
theorem text_moved : (moved x y).text =
    ascii "Pen moved to (" ++ Text.ofInt x.toInt ++ ascii ", " ++ Text.ofInt y.toInt ++
      ascii ")" := by
  have hto : ascii "Pen moved to (" = ascii "Pen moved to " ++ ascii "(" := rfl
  rw [text, append_point, hto]

end Outcome

/-! ## One action -/

/-- A number `x` whose pixel `p` is not negative is not negative itself, since `p` is its floor. -/
theorem Binary64.nonneg_of_pixelOf {x : Binary64} {p : Pixel} (h : pixelOf x = .ok p)
    (hp : 0 ≤ p) : x.Nonneg := by
  obtain ⟨a, ha, hfloor⟩ := exists_units_of_pixelOf h
  rw [Int32.le_iff_toInt_le, hfloor] at hp
  exact ⟨a, ha, (Int.ediv_nonneg_iff_of_pos unitsPerOne_pos).mp hp⟩

/-- The pixel `center` of a circle is between the pixels `low` and `high` of its ends, if the
`radius` is not negative. -/
theorem center_between {x radius : Binary64} {low center high : Pixel} (hradius : radius.Nonneg)
    (hlow : pixelOf (x.sub radius) = .ok low) (hx : pixelOf x = .ok center)
    (hhigh : pixelOf (x.add radius) = .ok high) : low ≤ center ∧ center ≤ high := by
  obtain ⟨a, ha, -⟩ := exists_units_of_pixelOf hx
  obtain ⟨b, hb, hnonneg⟩ := hradius
  obtain ⟨difference, hdifference, -⟩ := exists_units_of_pixelOf hlow
  obtain ⟨sum, hsum, -⟩ := exists_units_of_pixelOf hhigh
  constructor
  · exact pixel_le_pixel hdifference ha (Binary64.sub_le ha hb hnonneg hdifference) hlow hx
  · exact pixel_le_pixel ha hsum (Binary64.le_add ha hb hnonneg hsum) hx hhigh

namespace Pen

variable {p : Pen} {a : Action} {e : Effect}

/-- What the effect `e` of the action `a` by the pen `p` has to do with its call: its kind, its
color and width, and its numbers. -/
structure Account (p : Pen) (a : Action) (e : Effect) : Prop where
  /-- The call is of the kind that the action asks for. -/
  kind : e.call.map Call.kind = p.callKind? a
  /-- It is drawn in the color and the width of the pen. -/
  stroke : ∀ call ∈ e.call, call ≠ .clear → call.stroke? = some (p.color, p.strokeWidth)
  /-- The text of the outcome gives its numbers. -/
  accords : ∀ call ∈ e.call, Accords a e.outcome.text call

/-- An effect with a `call` gives an account of itself by what the `call` is. -/
theorem Account.ofCall {pen : Pen} {outcome : Outcome} {call : Call}
    (hkind : (some call).map Call.kind = p.callKind? a)
    (hstroke : call ≠ .clear → call.stroke? = some (p.color, p.strokeWidth))
    (haccords : Accords a outcome.text call) : Account p a ⟨some call, pen, outcome⟩ where
  kind := hkind
  stroke _ h := Option.mem_some.mp h ▸ hstroke
  accords _ h := Option.mem_some.mp h ▸ haccords

/-- An effect without a call has nothing to account for but that none is asked for. -/
theorem Account.silent {pen : Pen} {outcome : Outcome}
    (hkind : (none : Option Call).map Call.kind = p.callKind? a) :
    Account p a ⟨none, pen, outcome⟩ where
  kind := hkind
  stroke _ h := by simp at h
  accords _ h := by simp at h

/-- Every effect `e` of an action `a` gives an account of its call, with one case for each action.
-/
theorem account_of_obey (h : p.obey a = .ok e) : Account p a e := by
  -- The kind of the call is known for every action, and what is left is its text.
  have hkind := kind_of_obey h
  cases a with
  | drawLine x1 y1 x2 y2 =>
    obtain ⟨px1, py1, px2, py2, -, -, -, -, rfl⟩ := drawLine_eq_ok_iff.mp h
    refine .ofCall hkind (fun _ => rfl) ?_
    rw [Outcome.text_drewLine]
    exact .line ⟨px1, py1, px2, py2⟩
  | drawCircle x y radius =>
    obtain ⟨left, top, right, bottom, cx, cy, r, hleft, htop, hright, hbottom, hcx, hcy, hr, rfl⟩ :=
      drawCircle_eq_ok_iff.mp h
    refine .ofCall hkind (fun _ => rfl) ?_
    rw [Outcome.text_drewCircle]
    refine .circle fun hnonneg => ?_
    -- The pixel of the radius is at its floor, so the radius is no less than that pixel.
    have hradius := Binary64.nonneg_of_pixelOf hr hnonneg
    exact ⟨center_between hradius hleft hcx hright, center_between hradius htop hcy hbottom⟩
  | drawRectangle x y width height =>
    obtain ⟨left, top, right, bottom, w, h', -, -, -, -, -, -, rfl⟩ := drawRectangle_eq_ok_iff.mp h
    refine .ofCall hkind (fun _ => rfl) ?_
    rw [Outcome.text_drewRectangle]
    exact .rectangle ⟨left, top, right, bottom⟩
  | move x y =>
    obtain ⟨px, py, -, -, ⟨-, left, top, -, -, rfl⟩ | ⟨-, rfl⟩⟩ := move_eq_ok_iff.mp h
    · refine .ofCall hkind (fun _ => rfl) ?_
      rw [Outcome.text_moved]
      exact .move ⟨left, top, px, py⟩
    · exact .silent hkind
  | clear =>
    obtain rfl := Except.ok.inj h
    exact .ofCall hkind (fun hne => absurd rfl hne) .clear
  | setColor name | penUp | penDown =>
    obtain rfl := Except.ok.inj h
    exact .silent hkind

end Pen

/-! ## The turns of a run -/

namespace Turn

/-- What the result of the turn `t` has to do with the call that is recorded of it. -/
structure Account (t : Turn Recording) : Prop where
  /-- A turn that is done has recorded a call of the kind that its action asks for, if it asks for
  one, and a turn that fails has recorded none. -/
  kind : t.recorded?.map Call.kind =
    if t.isDone then t.session.pen.callKind? t.command.action else none
  /-- The call is in the color and the width of the pen. -/
  stroke : ∀ call ∈ t.recorded?, call ≠ .clear →
    call.stroke? = some (t.session.pen.color, t.session.pen.strokeWidth)
  /-- The turn is done, and the text of its result gives the numbers of the call. -/
  accords : ∀ call ∈ t.recorded?, t.isDone ∧ Accords t.command.action t.result.text call

/-- Every turn `t` on a recording gives an account of its call, whether it is done or fails. -/
theorem account (t : Turn Recording) : t.Account := by
  by_cases hdone : t.isDone
  · obtain ⟨e, hobey, hresult, -⟩ := exists_effect hdone
    have hrecorded : t.recorded? = e.call := by rw [recorded?, if_pos hdone, issued?, hobey]
    obtain ⟨hkind, hstroke, haccords⟩ := Pen.account_of_obey hobey
    constructor
    · rw [hrecorded, if_pos hdone, hkind]
    · rw [hrecorded]
      exact hstroke
    · rw [hrecorded, hresult]
      exact fun call hcall => ⟨hdone, haccords call hcall⟩
  · -- A turn that fails records nothing, so only its kind is left to check.
    have hrecorded : t.recorded? = none := by rw [recorded?, if_neg hdone]
    constructor
    · rw [hrecorded, if_neg hdone, Option.map_none]
    · simp [hrecorded]
    · simp [hrecorded]

end Turn

namespace Session

/-- The width of the strokes of a session `s` is that of the session `s₀` at its start: nothing
changes it. -/
theorem LeadsTo.strokeWidth {σ : Type} [Surface σ] {s₀ s : Session σ} (h : s₀.LeadsTo s) :
    s.pen.strokeWidth = s₀.pen.strokeWidth := by
  refine h.preserves (P := fun s => s.pen.strokeWidth = s₀.pen.strokeWidth) ?_ ?_ ?_ rfl
  · intro s c hs
    exact (fills_strokeWidth_executeAll s [c]).2.trans hs
  · exact fun s fills hs => hs
  · exact fun s surface hs => hs

/-- Results and calls give the same account of a run.

Each command has its turn, the report is that of their results, and the calls that the run adds to
the recording are those of the turns, in order. A command that is done has one call if it draws a
shape, wipes the canvas, or is a move with the pen down, and none otherwise, and one that fails has
none. A call that draws is in the color that the last command before it has set, or else in the
color at the start of the run, and in the stroke width of the settings. The text of the command's
result gives the numbers of its call (`Accords`). -/
theorem results_accord_with_calls {surface : Recording} {settings : CanvasConfig}
    {s : Session Recording} (h : (start surface settings).LeadsTo s) (cs : List Command) :
    (s.turns cs).map Turn.command = cs ∧
    (s.runCommands cs).1 = .ran ((s.turns cs).map Turn.result) ∧
    (s.runCommands cs).2.surface.calls =
      s.surface.calls ++ (s.turns cs).filterMap Turn.recorded? ∧
    ∀ earlier t later, s.turns cs = earlier ++ t :: later →
      (t.recorded?.map Call.kind =
        if t.isDone then t.session.pen.callKind? t.command.action else none) ∧
      ∀ call, t.recorded? = some call →
        (call ≠ .clear → call.stroke? = some
          (((earlier.map Turn.command).filterMap fun c => c.action.color?).getLast?.getD
            s.pen.color, settings.strokeWidth)) ∧
        t.isDone ∧ Accords t.command.action t.result.text call := by
  refine ⟨map_command_turns s cs, ?_, calls_executeAll s cs, ?_⟩
  · rw [map_result_turns]
    rfl
  intro earlier t later hturns
  obtain ⟨hkind, hstroke, haccords⟩ := t.account
  refine ⟨hkind, fun call hcall => ⟨fun hne => ?_, haccords call hcall⟩⟩
  -- The session of a turn is the one after the commands before it, whose last color counts.
  obtain ⟨ds, rfl, hsession⟩ := session_of_turns hturns
  have hcolor : t.session.pen.color =
      (ds.filterMap fun c => c.action.color?).getLast?.getD s.pen.color := by
    rw [hsession]
    exact view_pen_executeAll Pen.color Action.color? (fun _ _ => rfl) (fun _ _ => rfl) s ds
  have hwidth : t.session.pen.strokeWidth = settings.strokeWidth := by
    rw [hsession]
    exact (fills_strokeWidth_executeAll s ds).2.trans h.strokeWidth
  rw [map_command_turns, hstroke call hcall hne, hcolor, hwidth]

/-- A session that draws in red, on a recording that is armed against rectangles. -/
def redAndArmed : Session Recording :=
  let s : Session Recording := start ⟨800, 600, [], none⟩ {}
  let s := (s.ask (.run (ascii "set color \"red\"\npen down"))).2
  { s with surface := s.surface.refuse .rectangle (ascii "jammed") }

/-- A circle in red and a move in blue have the only calls of a run, and their results give the
numbers of these calls. The rectangle is refused, and the line is off the grid. -/
theorem accounts_of_circle_and_move :
    let s := redAndArmed
    let place : Position := ⟨1, 0⟩
    let circle : Command := ⟨.drawCircle (.ofHalves 21) (.ofInt 20) (.ofHalves 9), place⟩
    let refused : Command := ⟨.drawRectangle .zero .zero (.ofInt 5) (.ofInt 5), place⟩
    let blue : Command := ⟨.setColor (ascii "Blue"), place⟩
    let astray : Command := ⟨.drawLine .zero .zero .nan .zero, place⟩
    let before := [circle, refused, blue, astray]
    let t : Turn Recording := ⟨(s.executeAll before).2, ⟨.move .zero (.ofInt 4), place⟩⟩
    let ellipse : Call := .ellipse ⟨6, 15, 15, 24⟩ ⟨0xFF, 0x00, 0x00⟩ none 2
    let line : Call := .line ⟨10, 20, 0, 4⟩ ⟨0x00, 0x00, 0xFF⟩ 2
    (start (⟨800, 600, [], none⟩ : Recording) {}).LeadsTo s ∧
      s.turns (before ++ [t.command]) = s.turns before ++ [t] ∧
      (s.runCommands (before ++ [t.command])).1.messages = [
        ascii "Parsed 5 command(s)",
        ascii "[1] Drew circle at (10, 20) with radius 4",
        ascii "[2] Error executing command: jammed",
        ascii "[3] Color set to Blue",
        ascii "[4] Error executing command: Coordinate out of range: nan",
        ascii "[5] Pen moved to (0, 4)"] ∧
      (s.runCommands (before ++ [t.command])).2.surface.calls = [ellipse, line] ∧
      Accords circle.action (ascii "Drew circle at (10, 20) with radius 4") ellipse ∧
      t.recorded? = some line ∧ line.stroke? = some (.ofName (ascii "Blue"), 2) ∧
      Accords t.command.action (ascii "Pen moved to (0, 4)") line := by
  intro s place circle refused blue astray before t ellipse line
  have hleads : (start (⟨800, 600, [], none⟩ : Recording) {}).LeadsTo s := .change _ (.ask _ .refl)
  have hturns : s.turns (before ++ [t.command]) = s.turns before ++ [t] :=
    turns_append s before [t.command]
  have hcalls : s.surface.calls ++ (s.turns (before ++ [t.command])).filterMap Turn.recorded? =
      [ellipse, line] := by
    decide +kernel
  have hfirst : Turn.recorded? ⟨s, circle⟩ = some ellipse := by decide +kernel
  have hcircle : (Turn.result ⟨s, circle⟩).text =
      ascii "Drew circle at (10, 20) with radius 4" := by
    decide +kernel
  have hline : t.recorded? = some line := by decide +kernel
  have hmove : t.result.text = ascii "Pen moved to (0, 4)" := by decide +kernel
  have hcolors : ((s.turns before).map Turn.command).filterMap (fun c => c.action.color?) =
      [.ofName (ascii "Blue")] := by
    rw [map_command_turns]
    rfl
  obtain ⟨-, hreport, hrun, haccount⟩ :=
    results_accord_with_calls hleads (before ++ [t.command])
  -- The circle is accounted for at the start, where no turn came before, and the line of the move
  -- behind the four turns that may have set its color.
  obtain ⟨-, -, hcenter⟩ := (haccount [] ⟨s, circle⟩ _ rfl).2 ellipse hfirst
  obtain ⟨hstroke, -, hend⟩ := (haccount (s.turns before) t [] hturns).2 line hline
  rw [hcircle] at hcenter
  rw [hmove] at hend
  rw [hcolors] at hstroke
  refine ⟨hleads, hturns, ?_, hrun.trans hcalls, hcenter, hline, hstroke (by decide), hend⟩
  rw [hreport]
  decide +kernel

end Session

end Sketch
