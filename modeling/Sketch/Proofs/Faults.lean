import Sketch.Proofs.Grid
import Sketch.Proofs.Path

/-!
# Which commands fail, and with which words

A command fails if one of its coordinates is off the grid, or if the surface refuses its call.
`Action.coordinates` lists the numbers that a command turns into pixels, in the order in which it
does so, and `Pen.callKind?` says which kind of call it makes. `Session.failures_classified` shows
of reachable sessions on a recording that these two decide about every command, that the message
names the first coordinate off the grid, and that a report counts the commands that are stopped in
this way.

That an action looks at its coordinates in order, and has its call once they are all on the grid, is
the relation `CheckedInOrder`. It is closed under the reading of a pixel, so each action follows the
shape of its own definition (`Pen.obey_checkedInOrder`). A move also looks at the place of the pen,
which is on the grid in a reachable session.
-/

namespace Sketch

/-! ## What is looked at -/

/-- The numbers that lie on the grid can be told from the others. -/
instance : DecidablePred Binary64.OnGrid := fun _ => decidable_of_iff _ Binary64.isSome_pixel?_iff

namespace Action

/-- The numbers that an action turns into pixels, in the order in which the pen looks at them. The
far ends of a circle and of a rectangle are sums. -/
def coordinates : Action → List Binary64
  | drawLine x1 y1 x2 y2 => [x1, y1, x2, y2]
  | drawCircle x y radius =>
    [x.sub radius, y.sub radius, x.add radius, y.add radius, x, y, radius]
  | drawRectangle x y width height => [x, y, x.add width, y.add height, width, height]
  | move x y => [x, y]
  | setColor _ | clear | penUp | penDown => []

/-- The first of the `coordinates` of the action `a` that is off the grid, if any is. -/
def firstOff? (a : Action) : Option Binary64 := a.coordinates.find? fun x => ¬ x.OnGrid

end Action

/-- The numbers of the list are looked at one by one. The first that is off the grid is the fault,
and behind the last one there is an effect. -/
inductive CheckedInOrder : List Binary64 → Except Fault Effect → Prop where
  | effect (e : Effect) : CheckedInOrder [] (.ok e)
  | off {x : Binary64} {xs : List Binary64} :
      ¬ x.OnGrid → CheckedInOrder (x :: xs) (.error (.outOfRange x))
  | on {x : Binary64} {xs : List Binary64} {result : Except Fault Effect} :
      x.OnGrid → CheckedInOrder xs result → CheckedInOrder (x :: xs) result

variable {x : Binary64} {xs : List Binary64} {result : Except Fault Effect}

/-- What needs the pixel of `x` first looks at `x` first, and then at the numbers `xs` of what comes
`next`. -/
theorem CheckedInOrder.bind {next : Pixel → Except Fault Effect}
    (h : ∀ p, CheckedInOrder xs (next p)) :
    CheckedInOrder (x :: xs) (pixelOf x >>= next) := by
  by_cases hx : x.OnGrid
  · obtain ⟨p, hp⟩ := exists_pixelOf_eq_ok_iff.mpr hx
    rw [hp]
    exact .on hx (h p)
  · have hnone : x.pixel? = none := by
      simpa using mt Binary64.isSome_pixel?_iff.mp hx
    have hfault : pixelOf x = .error (.outOfRange x) := by rw [pixelOf, hnone]
    rw [hfault]
    exact .off hx

/-- The first number `x` off the grid is the fault of a `result` that is `CheckedInOrder`. -/
theorem CheckedInOrder.eq_error (h : CheckedInOrder xs result)
    (hx : xs.find? (fun x => ¬ x.OnGrid) = some x) : result = .error (.outOfRange x) := by
  induction h with
  | effect => simp at hx
  | off hoff =>
    rw [List.find?_cons_of_pos (by simpa using hoff), Option.some.injEq] at hx
    rw [hx]
  | on hon _ ih =>
    rw [List.find?_cons_of_neg (by simpa using hon)] at hx
    exact ih hx

/-- If no number of `xs` is off the grid, a `result` that is `CheckedInOrder` is an effect. -/
theorem CheckedInOrder.exists_effect (h : CheckedInOrder xs result)
    (hxs : xs.find? (fun x => ¬ x.OnGrid) = none) : ∃ e, result = .ok e := by
  induction h with
  | effect e => exact ⟨e, rfl⟩
  | off hoff => simp [hoff] at hxs
  | on hon _ ih =>
    rw [List.find?_cons_of_neg (by simpa using hon)] at hxs
    exact ih hxs

/-- A pen `p` on the grid looks at the `coordinates` of an action `a` in order. Its own place never
is at fault. -/
theorem Pen.obey_checkedInOrder {p : Pen} (h : p.OnGrid) (a : Action) :
    CheckedInOrder a.coordinates (p.obey a) := by
  cases a with
  | drawLine x1 y1 x2 y2 =>
    refine .bind fun px1 => .bind fun py1 => .bind fun px2 => .bind fun py2 => ?_
    exact .effect _
  | drawCircle x y radius =>
    refine .bind fun left => .bind fun top => .bind fun right => .bind fun bottom => ?_
    refine .bind fun cx => .bind fun cy => .bind fun r => ?_
    exact .effect _
  | drawRectangle x y width height =>
    refine .bind fun left => .bind fun top => .bind fun right => .bind fun bottom => ?_
    refine .bind fun w => .bind fun h' => ?_
    exact .effect _
  | move x y =>
    refine .bind fun px => .bind fun py => ?_
    by_cases hdown : p.isDown
    · -- The line of a move starts at the pen, whose pixels are there.
      obtain ⟨left, hleft⟩ := exists_pixelOf_eq_ok_iff.mpr h.1
      obtain ⟨top, htop⟩ := exists_pixelOf_eq_ok_iff.mpr h.2
      simp only [hdown, if_true, hleft, htop]
      exact .effect _
    · simp only [hdown]
      exact .effect _
  | setColor name | clear | penUp | penDown => exact .effect _

/-! ## Commands on a recording -/

namespace Session

/-- The action `a` is stopped by a coordinate off the grid, or by the recording of `s`, which is
armed against the kind of its call. -/
def IsStopped (s : Session Recording) (a : Action) : Prop :=
  (∃ x ∈ a.coordinates, ¬ x.OnGrid) ∨
    ∃ refusal ∈ s.surface.refusal, s.pen.callKind? a = some refusal.1

instance (s : Session Recording) : DecidablePred s.IsStopped :=
  fun _ => inferInstanceAs (Decidable (_ ∨ _))

variable {s : Session Recording} {c : Command} {x : Binary64}

/-- A command `c` with a coordinate off the grid fails for the first of them, `x`. -/
theorem execute_of_firstOff? (h : s.pen.OnGrid) (hx : c.action.firstOff? = some x) :
    (s.execute c).1 = .failed (.outOfRange x) := by
  rw [execute, (Pen.obey_checkedInOrder h c.action).eq_error hx]
  rfl

/-- A command `c` with all coordinates on the grid fails with the `message` of the recording, if
that is armed against its call. -/
theorem execute_of_armed {kind : CallKind} {message : Text} (h : s.pen.OnGrid)
    (hnone : c.action.firstOff? = none) (hkind : s.pen.callKind? c.action = some kind)
    (harmed : s.surface.refusal = some (kind, message)) :
    (s.execute c).1 = .failed (.refused message) := by
  obtain ⟨⟨call?, pen, outcome⟩, hobey⟩ :=
    (Pen.obey_checkedInOrder h c.action).exists_effect hnone
  have hcall := Pen.kind_of_obey hobey
  rw [hkind] at hcall
  obtain ⟨call, rfl, rfl⟩ := Option.map_eq_some_iff.mp hcall
  have hdraw : Surface.draw s.surface call = .error message :=
    Recording.draw_eq_error_iff.mpr harmed
  rw [execute, hobey]
  simp only [settle, hdraw]

/-- A command `c` fails exactly if it is stopped (`IsStopped`), on a session whose pen is on the
grid. -/
theorem isFaultText_execute_iff (h : s.pen.OnGrid) :
    Result.isFaultText (s.execute c).1.text ↔ s.IsStopped c.action := by
  cases hfirst : c.action.firstOff? with
  | some x =>
    have hmem : ∃ x ∈ c.action.coordinates, ¬ x.OnGrid :=
      ⟨x, List.mem_of_find?_eq_some hfirst, by simpa using List.find?_some hfirst⟩
    refine iff_of_true ?_ (.inl hmem)
    rw [execute_of_firstOff? h hfirst, Result.isFaultText_text_iff]
    exact ⟨_, rfl⟩
  | none =>
    have hall : ¬ ∃ x ∈ c.action.coordinates, ¬ x.OnGrid := by
      simpa [Action.firstOff?] using hfirst
    obtain ⟨⟨call?, pen, outcome⟩, hobey⟩ :=
      (Pen.obey_checkedInOrder h c.action).exists_effect hfirst
    -- With all coordinates on the grid there is an effect, and only its call can be refused.
    rw [execute, isFaultText_settle_iff, IsStopped, hobey, ← Pen.kind_of_obey hobey]
    cases call? with
    | none => simp [hall]
    | some call => simp [hall, Recording.draw_eq_error_iff]

/-- The turns of a reachable session `s` start on reachable sessions. -/
theorem Reachable.session_of_mem_turns (h : s.Reachable) {cs : List Command} {t : Turn Recording}
    (ht : t ∈ s.turns cs) : t.session.Reachable := by
  obtain ⟨earlier, later, hturns⟩ := List.append_of_mem ht
  obtain ⟨ds, -, hsession⟩ := session_of_turns hturns
  rw [hsession]
  exact .ask (.runCommands ds) h

/-- Failed commands are classified and counted.

A command fails exactly if one of its coordinates is off the grid or the recording is armed against
the kind of its call. Its message names the first coordinate off the grid, and if there is none, it
gives the message that the recording is armed with up to the first zero byte. A report counts the
commands that are stopped in the session that they are carried out on. -/
theorem failures_classified (h : s.Reachable) :
    (∀ c, let text := (s.execute c).1.text
      (Result.isFaultText text ↔ s.IsStopped c.action) ∧
      (∀ x, c.action.firstOff? = some x →
        text = ascii "Error executing command: Coordinate out of range: " ++ x.text) ∧
      ∀ kind message, c.action.firstOff? = none → s.pen.callKind? c.action = some kind →
        s.surface.refusal = some (kind, message) →
        text = ascii "Error executing command: " ++ Text.beforeNul message) ∧
    ∀ cs, (s.turns cs).map Turn.command = cs ∧
      (s.runCommands cs).1.failedCommands =
        (s.turns cs).countP fun t => t.session.IsStopped t.command.action := by
  have hpen := h.pen_onGrid
  have hwords : ascii "Error executing command: Coordinate out of range: " =
      Result.faultMark ++ ascii "Coordinate out of range: " := by
    decide
  refine ⟨fun c => ⟨isFaultText_execute_iff hpen, fun x hx => ?_, ?_⟩, fun cs => ⟨?_, ?_⟩⟩
  · rw [execute_of_firstOff? hpen hx, hwords, List.append_assoc]
    rfl
  · intro kind message hnone hkind harmed
    rw [execute_of_armed hpen hnone hkind harmed]
    rfl
  · exact map_command_turns s cs
  · show List.countP _ (s.executeAll cs).1 = _
    rw [← map_result_turns, List.countP_map]
    refine List.countP_congr fun t ht => ?_
    -- Each turn has its own pen, which is on the grid since its session is reachable.
    have hturn := (h.session_of_mem_turns ht).pen_onGrid
    rw [decide_eq_true_iff]
    exact isFaultText_execute_iff hturn

/-- A session whose recording is armed against lines, with a message that has a zero byte in it. -/
def jammedAtStart : Session Recording :=
  let s : Session Recording := start ⟨800, 600, [], none⟩ {}
  { s with surface := s.surface.refuse .line (ascii "jammed" ++ 0 :: ascii "shut") }

/-- A move astray and one that the recording refuses, a color that is named like a fault, and a move
with the pen lifted. The first two fail and the others do not. -/
theorem failures_of_jammed_session :
    let s := jammedAtStart
    let place : Position := ⟨1, 0⟩
    let astray : Command := ⟨.move (.ofInt 5) .nan, place⟩
    let back : Command := ⟨.move .zero .zero, place⟩
    let color : Command := ⟨.setColor Result.faultMark, place⟩
    let cs := [astray, back, color, ⟨.penUp, place⟩, back]
    s.Reachable ∧ astray.action.firstOff? = some .nan ∧
      (s.execute astray).1.text =
        ascii "Error executing command: Coordinate out of range: " ++ Binary64.nan.text ∧
      back.action.firstOff? = none ∧ s.pen.callKind? back.action = some .line ∧
      (s.execute back).1.text = ascii "Error executing command: jammed" ∧
      ¬ Result.isFaultText (s.execute color).1.text ∧
      (s.runCommands cs).1.failedCommands = 2 := by
  intro s place astray back color cs
  have hreachable : s.Reachable := .change _ (.start _ _)
  obtain ⟨hcommand, hrun⟩ := failures_classified hreachable
  have hastray : astray.action.firstOff? = some .nan := by decide +kernel
  have hback : back.action.firstOff? = none := by decide +kernel
  have hkind : s.pen.callKind? back.action = some .line := by decide +kernel
  -- The name of the color holds the mark of a fault, yet setting it is none.
  have hstopped : ¬ s.IsStopped color.action := by decide +kernel
  have hcount : ((s.turns cs).countP fun t => t.session.IsStopped t.command.action) = 2 := by
    decide +kernel
  refine ⟨hreachable, hastray, (hcommand astray).2.1 _ hastray, hback, hkind, ?_, ?_, ?_⟩
  · exact (hcommand back).2.2 .line _ hback hkind rfl
  · exact mt (hcommand color).1.mp hstopped
  · exact (hrun cs).2.trans hcount

end Session

end Sketch
