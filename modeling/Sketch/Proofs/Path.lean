import Sketch.Proofs.Atomicity
import Sketch.Proofs.Effects

/-!
# The path of the pen

Where the pen is after a list of commands can be read off the list and the results of its commands,
and so can all else that the pen remembers. `Session.pen_after_commands` says how, and that the
lines of moves are joined to what the pen drew before: each starts on the pixel where the last
command that took the pen along has ended.

A list of commands is carried out in turns (`Session.turns`). One turn changes the pen in one way
(`Turn.after_pen`), and what the last turn to change something has left is there at the end
(`Session.view_executeAll`).
-/

namespace Sketch

variable {σ : Type}

/-! ## What an action leaves of the pen -/

namespace Action

/-- The pen is down after the action, or it is up, if the action has a say in it: only `penUp` and
`penDown` do. -/
def lowers? : Action → Option Bool
  | penUp => some false
  | penDown => some true
  | _ => none

/-- The color to draw in after the action, if the action has a say in it: only `setColor` does. -/
def color? : Action → Option Color
  | setColor name => some (.ofName name)
  | _ => none

/-- The point that the action ends at, which is the center of a circle and the far corner of a
rectangle. -/
def endPoint? : Action → Option (Binary64 × Binary64)
  | drawLine _ _ x2 y2 => some (x2, y2)
  | drawCircle x y _ => some (x, y)
  | drawRectangle x y width height => some (x.add width, y.add height)
  | move x y => some (x, y)
  | setColor _ | clear | penUp | penDown => none

/-- The action is a move, which takes the pen along whether it is down or up. -/
def isMove : Action → Bool
  | move .. => true
  | _ => false

end Action

namespace Pen

/-- The place of the pen `p`, as a pair of its coordinates. -/
def place (p : Pen) : Binary64 × Binary64 := (p.x, p.y)

/-- The point that the action `a` takes the pen `p` to. A move always takes it along, and a shape
does so while the pen is down. -/
def arrival? (p : Pen) (a : Action) : Option (Binary64 × Binary64) :=
  if a.isMove || p.isDown then a.endPoint? else none

/-- The pen `p` at another `place`, or where it is if there is none. -/
def goTo (p : Pen) (place : Option (Binary64 × Binary64)) : Pen :=
  { p with x := (place.getD p.place).1, y := (place.getD p.place).2 }

/-- The pen `p` after what an action `a` says about its height and its color. -/
def adjust (p : Pen) (a : Action) : Pen :=
  { p with isDown := a.lowers?.getD p.isDown, color := a.color?.getD p.color }

variable {p : Pen} {a : Action} {e : Effect}

/-- A pen `p` that follows to a point goes there if it is down, and stays otherwise. -/
theorem follow_eq (p : Pen) (x y : Binary64) :
    p.follow x y = p.goTo (if p.isDown then some (x, y) else none) := by
  unfold follow
  split <;> rfl

/-- The pen after an action `a` is where the action takes it (`arrival?`), and as the action adjusts
it (`adjust`). -/
theorem obey_pen (h : p.obey a = .ok e) : e.pen = (p.adjust a).goTo (p.arrival? a) := by
  cases a with
  | drawLine x1 y1 x2 y2 =>
    obtain ⟨-, -, -, -, -, -, -, -, rfl⟩ := drawLine_eq_ok_iff.mp h
    exact follow_eq p x2 y2
  | drawCircle x y radius =>
    obtain ⟨-, -, -, -, -, -, -, -, -, -, -, -, -, -, rfl⟩ := drawCircle_eq_ok_iff.mp h
    exact follow_eq p x y
  | drawRectangle x y width height =>
    obtain ⟨-, -, -, -, -, -, -, -, -, -, -, -, rfl⟩ := drawRectangle_eq_ok_iff.mp h
    exact follow_eq p _ _
  | move x y =>
    -- With the pen down or up, a move ends at its target.
    obtain ⟨-, -, -, -, ⟨-, -, -, -, -, rfl⟩ | ⟨-, rfl⟩⟩ := move_eq_ok_iff.mp h
    · rfl
    · rfl
  | setColor name | clear | penUp | penDown =>
    obtain rfl := Except.ok.inj h
    cases p with | mk x y isDown => cases isDown <;> rfl

/-- An action `a` that has no effect without a call on the surface adjusts nothing of the pen. -/
theorem adjust_eq_self (h : ∀ e, p.obey a = .ok e → e.call ≠ none) : p.adjust a = p := by
  cases a with
  | setColor name | penUp | penDown => exact absurd rfl (h _ rfl)
  | drawLine | drawCircle | drawRectangle | clear | move => rfl

end Pen

/-! ## Turns -/

/-- A command and the session that it is carried out on. -/
structure Turn (σ : Type) where
  session : Session σ
  command : Command

namespace Turn

variable [Surface σ]

/-- What came of the command of the turn `t`. -/
def result (t : Turn σ) : Result := (t.session.execute t.command).1

/-- The session after the turn `t`. -/
def after (t : Turn σ) : Session σ := (t.session.execute t.command).2

/-- The command of the turn `t` did not fail, by the wording of its result. -/
def isDone (t : Turn σ) : Bool := !Result.isFaultText t.result.text

/-- The point that the command of the turn `t` has taken the pen to. A turn that fails takes it
nowhere. -/
def arrival? (t : Turn σ) : Option (Binary64 × Binary64) :=
  if t.isDone then t.session.pen.arrival? t.command.action else none

/-- All that can come of a turn `t`. Without an effect, or if the surface refuses its call, nothing
changes. An effect without a call changes the pen only. -/
inductive Ends (t : Turn σ) : Result → Session σ → Prop where
  | stuck {fault : Fault} :
      t.session.pen.obey t.command.action = .error fault → Ends t (.failed fault) t.session
  | refused {call : Call} {pen : Pen} {outcome : Outcome} {message : Text} :
      t.session.pen.obey t.command.action = .ok ⟨some call, pen, outcome⟩ →
      Surface.draw t.session.surface call = .error message →
      Ends t (.failed (.refused message)) t.session
  | silent {pen : Pen} {outcome : Outcome} :
      t.session.pen.obey t.command.action = .ok ⟨none, pen, outcome⟩ →
      Ends t (.done outcome) ⟨pen, t.session.surface⟩
  | drawn {call : Call} {pen : Pen} {outcome : Outcome} {surface : σ} :
      t.session.pen.obey t.command.action = .ok ⟨some call, pen, outcome⟩ →
      Surface.draw t.session.surface call = .ok surface →
      Ends t (.done outcome) ⟨pen, surface⟩

/-- A turn `t` ends in one of the four ways of `Ends`. -/
theorem ends (t : Turn σ) : t.Ends t.result t.after := by
  have hresult : t.result = (t.session.settle (t.session.pen.obey t.command.action)).1 := rfl
  have hafter : t.after = (t.session.settle (t.session.pen.obey t.command.action)).2 := rfl
  rw [hresult, hafter]
  cases hobey : t.session.pen.obey t.command.action with
  | error fault => exact .stuck hobey
  | ok e =>
    obtain ⟨_ | call, pen, outcome⟩ := e
    · exact .silent hobey
    · simp only [Session.settle]
      cases hdraw : Surface.draw t.session.surface call with
      | error message => exact .refused hobey hdraw
      | ok surface => exact .drawn hobey hdraw

variable {t : Turn σ}

/-- A turn `t` is done exactly if its result is an outcome, as no outcome is worded as a fault. -/
theorem isDone_iff : t.isDone ↔ ∃ outcome, t.result = .done outcome := by
  rw [isDone, Bool.not_eq_true', ← Bool.not_eq_true, Result.isFaultText_text_iff]
  cases t.result <;> simp

/-- A turn `t` that is done has an effect `e`, whose outcome is its result. The surface has taken
the call of `e` if there is one, and is as it was if there is none. -/
theorem effect_of_isDone (h : t.isDone) :
    ∃ e, t.session.pen.obey t.command.action = .ok e ∧ t.result = .done e.outcome ∧
      (e.call = none → t.after.surface = t.session.surface) ∧
      ∀ call, e.call = some call → Surface.draw t.session.surface call = .ok t.after.surface := by
  obtain ⟨outcome, hresult⟩ := isDone_iff.mp h
  have hends := t.ends
  rw [hresult] at hends ⊢
  generalize t.after = last at hends ⊢
  cases hends with
  | silent hobey => exact ⟨_, hobey, rfl, fun _ => rfl, by simp⟩
  | drawn hobey hdraw =>
    refine ⟨_, hobey, rfl, by simp, fun call hcall => ?_⟩
    obtain rfl := Option.some.inj hcall
    exact hdraw

/-- A turn `t` takes the pen to a `place` if it is done and its action does so. -/
theorem arrival?_eq_some_iff {place : Binary64 × Binary64} :
    t.arrival? = some place ↔
      t.isDone ∧ t.session.pen.arrival? t.command.action = some place := by
  rw [arrival?, Option.ite_none_right_eq_some]

/-- A turn `t` that fails takes the pen nowhere. -/
theorem arrival?_of_failed {fault : Fault} (h : t.result = .failed fault) : t.arrival? = none := by
  have hdone : ¬ t.isDone := by simp [isDone_iff, h]
  rw [arrival?, if_neg hdone]

/-- A turn `t` that is done takes the pen where its action does, if anywhere. -/
theorem arrival?_of_done {outcome : Outcome} (h : t.result = .done outcome) :
    t.arrival? = t.session.pen.arrival? t.command.action := by
  rw [arrival?, if_pos (isDone_iff.mpr ⟨outcome, h⟩)]

/-- A turn `t` takes the pen where it arrives and adjusts it as its action does, whether it is done
or not. -/
theorem after_pen (t : Turn σ) :
    t.after.pen = (t.session.pen.adjust t.command.action).goTo t.arrival? := by
  have hends := t.ends
  generalize hresult : t.result = result at hends
  generalize t.after = last at hends
  -- Nothing is adjusted where the pen is not taken anywhere by a fault.
  cases hends with
  | stuck hobey =>
    rw [arrival?_of_failed hresult, Pen.adjust_eq_self (by simp [hobey])]
    rfl
  | refused hobey =>
    rw [arrival?_of_failed hresult, Pen.adjust_eq_self (by simp [hobey])]
    rfl
  | silent hobey =>
    rw [arrival?_of_done hresult]
    exact Pen.obey_pen hobey
  | drawn hobey =>
    rw [arrival?_of_done hresult]
    exact Pen.obey_pen hobey

end Turn

namespace Session

variable [Surface σ]

/-- The turns in which commands are carried out, each on the session that those before it leave. -/
def turns (s : Session σ) : List Command → List (Turn σ)
  | [] => []
  | command :: commands => ⟨s, command⟩ :: (s.execute command).2.turns commands

/-- The turns of the commands `ds` after `cs` start on the session that `cs` leave. -/
theorem turns_append (s : Session σ) (cs ds : List Command) :
    s.turns (cs ++ ds) = s.turns cs ++ (s.executeAll cs).2.turns ds := by
  induction cs generalizing s with
  | nil => rfl
  | cons c cs ih =>
    rw [List.cons_append, turns, turns, List.cons_append, ih, executeAll_cons]

/-- The results of the commands `cs` are those of their turns, in order. -/
theorem map_result_turns (s : Session σ) (cs : List Command) :
    (s.turns cs).map Turn.result = (s.executeAll cs).1 := by
  induction cs generalizing s with
  | nil => rfl
  | cons c cs ih =>
    rw [turns, List.map_cons, ih]
    rfl

/-- Every command of `cs` has its turn, in order, whether it fails or not. -/
theorem map_command_turns (s : Session σ) (cs : List Command) :
    (s.turns cs).map Turn.command = cs := by
  induction cs generalizing s with
  | nil => rfl
  | cons c cs ih => rw [turns, List.map_cons, ih]

/-- A turn `t` is taken on the session that the turns `earlier` leave, which are those of some
commands `ds`. -/
theorem session_of_turns {s : Session σ} {cs : List Command} {earlier later : List (Turn σ)}
    {t : Turn σ} (h : s.turns cs = earlier ++ t :: later) :
    ∃ ds, earlier = s.turns ds ∧ t.session = (s.executeAll ds).2 := by
  induction cs generalizing s earlier with
  | nil => simp [turns] at h
  | cons c cs ih =>
    obtain ⟨rfl, hhead⟩ | ⟨earlier, rfl, htail⟩ := List.cons_eq_append_iff.mp h
    · obtain ⟨rfl, -⟩ := List.cons.inj hhead
      exact ⟨[], rfl, rfl⟩
    · obtain ⟨ds, rfl, hsession⟩ := ih htail
      exact ⟨c :: ds, rfl, hsession⟩

/-- What a `view` sees of a session after the commands `cs` is the last news (`news?`) that a turn
has brought, or what it saw before if there is no news. -/
theorem view_executeAll {α : Type} (view : Session σ → α) (news? : Turn σ → Option α)
    (h : ∀ t : Turn σ, view t.after = (news? t).getD (view t.session)) (s : Session σ)
    (cs : List Command) :
    view (s.executeAll cs).2 = ((s.turns cs).filterMap news?).getLast?.getD (view s) := by
  induction cs generalizing s with
  | nil => rfl
  | cons c cs ih =>
    have hturn : view (s.execute c).2 = (news? ⟨s, c⟩).getD (view s) := h ⟨s, c⟩
    rw [executeAll_cons, ih, hturn, turns, List.filterMap_cons]
    cases news? ⟨s, c⟩ with
    | none => rfl
    | some a => rw [List.getLast?_cons, Option.getD_some, Option.getD_some]

/-- The pen after the commands `cs` is where the last turn has taken it that took it anywhere. -/
theorem place_executeAll (s : Session σ) (cs : List Command) :
    (s.executeAll cs).2.pen.place =
      ((s.turns cs).filterMap Turn.arrival?).getLast?.getD s.pen.place := by
  have hturn : ∀ t : Turn σ, t.after.pen.place = t.arrival?.getD t.session.pen.place := fun t => by
    rw [t.after_pen]
    rfl
  exact view_executeAll (fun s => s.pen.place) Turn.arrival? hturn s cs

/-- What a `view` sees of the pen, and is adjusted by actions alone (`hgo`), is as the last command
of `cs` has it that adjusts it. -/
theorem view_pen_executeAll {α : Type} (view : Pen → α) (news? : Action → Option α)
    (hadjust : ∀ p a, view (p.adjust a) = (news? a).getD (view p))
    (hgo : ∀ (p : Pen) place, view (p.goTo place) = view p) (s : Session σ) (cs : List Command) :
    view (s.executeAll cs).2.pen =
      (cs.filterMap fun c => news? c.action).getLast?.getD (view s.pen) := by
  have hturn : ∀ t : Turn σ, view t.after.pen =
      (news? t.command.action).getD (view t.session.pen) := fun t => by
    rw [t.after_pen, hgo, hadjust]
  -- The news of a turn are those of its command, so the turns can be left out.
  have hcommands : (s.turns cs).filterMap (fun t => news? t.command.action) =
      cs.filterMap fun c => news? c.action := by
    have hmap := List.filterMap_map (f := Turn.command) (g := fun c => news? c.action)
      (l := s.turns cs)
    rw [map_command_turns] at hmap
    exact hmap.symm
  rw [← hcommands]
  exact view_executeAll (fun s => view s.pen) (fun t => news? t.command.action) hturn s cs

/-- How wide the pen draws, and whether it fills shapes, is not for commands `cs` to change. -/
theorem fills_strokeWidth_executeAll (s : Session σ) (cs : List Command) :
    (s.executeAll cs).2.pen.fills = s.pen.fills ∧
      (s.executeAll cs).2.pen.strokeWidth = s.pen.strokeWidth := by
  have hturn : ∀ t : Turn σ, t.after.pen.fills = t.session.pen.fills ∧
      t.after.pen.strokeWidth = t.session.pen.strokeWidth := fun t => by
    rw [t.after_pen]
    exact ⟨rfl, rfl⟩
  induction cs generalizing s with
  | nil => exact ⟨rfl, rfl⟩
  | cons c cs ih =>
    obtain ⟨hfills, hwidth⟩ := ih (s.execute c).2
    exact ⟨hfills.trans (hturn ⟨s, c⟩).1, hwidth.trans (hturn ⟨s, c⟩).2⟩

end Session

/-! ## What a recording shows of the path -/

/-- A recording `r` that takes a `call` keeps it behind the others. -/
theorem Recording.calls_of_draw {r r' : Recording} {call : Call}
    (h : Surface.draw r call = .ok r') : r'.calls = r.calls ++ [call] := by
  have hrecord : r.record call = .ok r' := h
  unfold Recording.record at hrecord
  split at hrecord
  · cases hrecord
  · obtain rfl := Except.ok.inj hrecord
    rfl

namespace Turn

/-- A turn `t` that is done on a recording has an effect `e`, which is its result and the call that
it adds. -/
theorem exists_effect {t : Turn Recording} (h : t.isDone) :
    ∃ e, t.session.pen.obey t.command.action = .ok e ∧ t.result = .done e.outcome ∧
      t.after.surface.calls = t.session.surface.calls ++ e.call.toList := by
  obtain ⟨e, hobey, hresult, hsilent, hdrawn⟩ := effect_of_isDone h
  refine ⟨e, hobey, hresult, ?_⟩
  cases hcall : e.call with
  | none => rw [hsilent hcall, Option.toList_none, List.append_nil]
  | some call => exact Recording.calls_of_draw (hdrawn call hcall)

/-- The turn `t` has added one call to the recording, whose box ends on the pixel `px`, `py`. -/
def RecordsUpTo (t : Turn Recording) (px py : Pixel) : Prop :=
  ∃ call box, t.after.surface.calls = t.session.surface.calls ++ [call] ∧ call.box? = some box ∧
    box.x2 = px ∧ box.y2 = py

/-- The turn lets the pixel be seen that it ends on. Lines, rectangles and moves that draw have it
in the recording, and circles and other moves in their result. -/
inductive Shows (t : Turn Recording) (px py : Pixel) : Prop where
  | line {x1 y1 x2 y2 : Binary64} : t.command.action = .drawLine x1 y1 x2 y2 →
      t.RecordsUpTo px py → Shows t px py
  | rectangle {x y width height : Binary64} : t.command.action = .drawRectangle x y width height →
      t.RecordsUpTo px py → Shows t px py
  | drawnMove {x y : Binary64} : t.command.action = .move x y → t.session.pen.isDown →
      t.RecordsUpTo px py → Shows t px py
  | silentMove {x y : Binary64} : t.command.action = .move x y → t.session.pen.isDown = false →
      t.result.text = (Outcome.moved px py).text → Shows t px py
  | circle {x y radius : Binary64} {r : Pixel} : t.command.action = .drawCircle x y radius →
      t.result.text = (Outcome.drewCircle px py r).text → Shows t px py

variable {t : Turn Recording} {x y : Binary64} {px py : Pixel}

/-- A coordinate has no more than one pixel: `p` and `q` are the same. -/
theorem pixelOf_unique {p q : Pixel} (hp : pixelOf x = .ok p) (hq : pixelOf x = .ok q) : p = q :=
  Except.ok.inj (hp.symm.trans hq)

/-- A turn `t` that takes the pen along lets the pixel be seen that it ends on, in the recording or
in its result. -/
theorem shows_of_arrival (h : t.arrival? = some (x, y)) (hx : pixelOf x = .ok px)
    (hy : pixelOf y = .ok py) : t.Shows px py := by
  obtain ⟨hdone, h⟩ := arrival?_eq_some_iff.mp h
  obtain ⟨e, hobey, hresult, hcalls⟩ := exists_effect hdone
  -- The point that each action ends at has a pixel in its own call, or in the words of its result.
  cases haction : t.command.action with
  | drawLine x1 y1 x2 y2 =>
    rw [haction] at h hobey
    obtain ⟨px1, py1, px2, py2, -, -, hx2, hy2, rfl⟩ := Pen.drawLine_eq_ok_iff.mp hobey
    obtain ⟨-, rfl, rfl⟩ : _ ∧ x2 = x ∧ y2 = y := by
      simpa [Pen.arrival?, Action.isMove, Action.endPoint?] using h
    exact .line haction ⟨_, _, hcalls, rfl, pixelOf_unique hx2 hx, pixelOf_unique hy2 hy⟩
  | drawCircle cx cy radius =>
    rw [haction] at h hobey
    obtain ⟨left, top, right, bottom, pcx, pcy, r, -, -, -, -, hcx, hcy, -, rfl⟩ :=
      Pen.drawCircle_eq_ok_iff.mp hobey
    obtain ⟨-, rfl, rfl⟩ : _ ∧ cx = x ∧ cy = y := by
      simpa [Pen.arrival?, Action.isMove, Action.endPoint?] using h
    obtain rfl := pixelOf_unique hcx hx
    obtain rfl := pixelOf_unique hcy hy
    exact .circle haction (congrArg Result.text hresult)
  | drawRectangle x1 y1 width height =>
    rw [haction] at h hobey
    obtain ⟨left, top, right, bottom, w, h', -, -, hright, hbottom, -, -, rfl⟩ :=
      Pen.drawRectangle_eq_ok_iff.mp hobey
    obtain ⟨-, rfl, rfl⟩ : _ ∧ x1.add width = x ∧ y1.add height = y := by
      simpa [Pen.arrival?, Action.isMove, Action.endPoint?] using h
    exact .rectangle haction
      ⟨_, _, hcalls, rfl, pixelOf_unique hright hx, pixelOf_unique hbottom hy⟩
  | move mx my =>
    rw [haction] at h hobey
    obtain ⟨rfl, rfl⟩ : mx = x ∧ my = y := by
      simpa [Pen.arrival?, Action.isMove, Action.endPoint?] using h
    obtain ⟨pmx, pmy, hmx, hmy, hmove⟩ := Pen.move_eq_ok_iff.mp hobey
    obtain rfl := pixelOf_unique hmx hx
    obtain rfl := pixelOf_unique hmy hy
    obtain ⟨hdown, left, top, -, -, rfl⟩ | ⟨hup, rfl⟩ := hmove
    · exact .drawnMove haction hdown ⟨_, _, hcalls, rfl, rfl, rfl⟩
    · exact .silentMove haction hup (congrArg Result.text hresult)
  | setColor name | clear | penUp | penDown =>
    rw [haction] at h
    simp [Pen.arrival?, Action.endPoint?] at h

/-- A move that is done with the pen down adds a line, from the pixel of the place that the pen
comes from. -/
theorem calls_of_move (haction : t.command.action = .move x y) (hdone : t.isDone)
    (hdown : t.session.pen.isDown) :
    ∃ box, t.after.surface.calls =
        t.session.surface.calls ++ [.line box t.session.pen.color t.session.pen.strokeWidth] ∧
      pixelOf t.session.pen.x = .ok box.x1 ∧ pixelOf t.session.pen.y = .ok box.y1 := by
  obtain ⟨e, hobey, -, hcalls⟩ := exists_effect hdone
  rw [haction] at hobey
  obtain ⟨px, py, -, -, ⟨-, left, top, hleft, htop, rfl⟩ | ⟨hup, -⟩⟩ := Pen.move_eq_ok_iff.mp hobey
  · exact ⟨⟨left, top, px, py⟩, hcalls, hleft, htop⟩
  · simp [hup] at hdown

/-- Any other move, which fails or is done with the pen up, adds nothing to the recording. -/
theorem calls_of_silent_move (haction : t.command.action = .move x y)
    (h : ¬ (t.isDone ∧ t.session.pen.isDown)) :
    t.after.surface.calls = t.session.surface.calls := by
  by_cases hdone : t.isDone
  · obtain ⟨e, hobey, -, hcalls⟩ := exists_effect hdone
    rw [haction] at hobey
    obtain ⟨px, py, -, -, ⟨hdown, -⟩ | ⟨-, rfl⟩⟩ := Pen.move_eq_ok_iff.mp hobey
    · exact absurd ⟨hdone, hdown⟩ h
    · rw [hcalls, Option.toList_none, List.append_nil]
  · have hfault : Result.isFaultText t.result.text := by simpa [isDone] using hdone
    rw [after, Session.execute_of_isFaultText hfault]

end Turn

namespace Session

/-- The path of the pen.

After a list of commands the pen is down or up as the last command said that had a say in it, and
its color is the last one that was set. Whether it fills shapes and how wide it draws are as before.
It is where the last command ended that took it along.

A move that is done while the pen is down draws a line, and no other move draws anything. The line
starts on the pixel where the last command has ended that took the pen along, or of the place of the
pen before all commands. That pixel is the one which the recording or the result of that command
shows. -/
theorem pen_after_commands :
    (∀ {σ : Type} [Surface σ] (s : Session σ) (cs : List Command),
      (s.turns cs).map Turn.command = cs ∧
      (s.turns cs).map Turn.result = (s.runCommands cs).1.results ∧
      let pen := (s.runCommands cs).2.pen
      pen.isDown = (cs.filterMap fun c => c.action.lowers?).getLast?.getD s.pen.isDown ∧
      pen.color = (cs.filterMap fun c => c.action.color?).getLast?.getD s.pen.color ∧
      pen.fills = s.pen.fills ∧ pen.strokeWidth = s.pen.strokeWidth ∧
      pen.place = ((s.turns cs).filterMap Turn.arrival?).getLast?.getD s.pen.place) ∧
    ∀ (s : Session Recording) (cs : List Command) (earlier later : List (Turn Recording))
      (t : Turn Recording) (x y : Binary64),
      s.turns cs = earlier ++ t :: later → t.command.action = .move x y →
      (t.isDone ∧ t.session.pen.isDown →
        let origin := (earlier.filterMap Turn.arrival?).getLast?.getD s.pen.place
        ∃ box, t.after.surface.calls = t.session.surface.calls ++
            [.line box t.session.pen.color t.session.pen.strokeWidth] ∧
          pixelOf origin.1 = .ok box.x1 ∧ pixelOf origin.2 = .ok box.y1 ∧
          ∀ before last between, earlier = before ++ last :: between → last.arrival?.isSome →
            (∀ u ∈ between, u.arrival? = none) → last.Shows box.x1 box.y1) ∧
      (¬ (t.isDone ∧ t.session.pen.isDown) →
        t.after.surface.calls = t.session.surface.calls) := by
  constructor
  · intro σ _ s cs
    obtain ⟨hfills, hwidth⟩ := fills_strokeWidth_executeAll s cs
    refine ⟨map_command_turns s cs, map_result_turns s cs, ?_, ?_, hfills, hwidth,
      place_executeAll s cs⟩
    · -- Height and color change by actions alone, done or not, since an action that fails has no
      -- say in them.
      exact view_pen_executeAll Pen.isDown Action.lowers? (fun _ _ => rfl) (fun _ _ => rfl) s cs
    · exact view_pen_executeAll Pen.color Action.color? (fun _ _ => rfl) (fun _ _ => rfl) s cs
  · intro s cs earlier later t x y hturns haction
    refine ⟨?_, Turn.calls_of_silent_move haction⟩
    rintro ⟨hdone, hdown⟩
    obtain ⟨box, hcalls, hx, hy⟩ := Turn.calls_of_move haction hdone hdown
    -- The turns before the move are those of some commands, after which the pen is where the last
    -- arrival was.
    obtain ⟨ds, rfl, hsession⟩ := session_of_turns hturns
    have hplace := place_executeAll s ds
    rw [← hsession] at hplace
    refine ⟨box, hcalls, ?_, ?_, ?_⟩
    · rw [← hplace]
      exact hx
    · rw [← hplace]
      exact hy
    · intro before last between hearlier harrival hbetween
      obtain ⟨place, hlast⟩ := Option.isSome_iff_exists.mp harrival
      -- Nothing between took the pen anywhere, so that the last arrival is the one in question.
      have hnone : between.filterMap Turn.arrival? = [] := List.filterMap_eq_nil_iff.mpr hbetween
      rw [hearlier, List.filterMap_append, List.filterMap_cons_some hlast, hnone,
        List.getLast?_concat, Option.getD_some] at hplace
      rw [← hplace] at hlast
      exact Turn.shows_of_arrival hlast hx hy

/-- A fresh session on an empty recording that refuses nothing. -/
def fresh : Session Recording := .start ⟨800, 600, [], none⟩ {}

/-- A command for the `action` at the first byte of a program. -/
def onFirstLine (action : Action) : Command := ⟨action, ⟨1, 0⟩⟩

/-- The pen is lifted and draws a circle. -/
def lifted : List Command :=
  [.penUp, .drawCircle (.ofInt 10) (.ofInt 20) (.ofInt 5)].map onFirstLine

/-- The pen is taken to a place between pixels. -/
def away : Command := onFirstLine (.move (.ofHalves 15) (.ofHalves (-7)))

/-- The pen is lowered, and a rectangle fails. -/
def lowered : List Command :=
  [.penDown, .drawRectangle .nan .zero .zero .zero].map onFirstLine

/-- The line of the next move starts on the pixel at the floor of that place, which the result of
the move there shows. -/
theorem path_from_away :
    let home : Command := onFirstLine (.move .zero .zero)
    let earlier := lifted ++ away :: lowered
    let last : Turn Recording := ⟨(fresh.executeAll lifted).2, away⟩
    let t : Turn Recording := ⟨(fresh.executeAll earlier).2, home⟩
    fresh.turns (earlier ++ [home]) = fresh.turns earlier ++ [t] ∧
      (t.isDone ∧ t.session.pen.isDown) ∧
      last.result.text = ascii "Pen moved to (7, -4)" ∧ last.Shows 7 (-4) ∧
      ∃ box, t.after.surface.calls =
          t.session.surface.calls ++ [.line box t.session.pen.color t.session.pen.strokeWidth] ∧
        box.x1 = 7 ∧ box.y1 = -4 := by
  intro home earlier last t
  have hturns : fresh.turns (earlier ++ [home]) = fresh.turns earlier ++ [t] :=
    turns_append _ _ _
  have hsplit : fresh.turns earlier = fresh.turns lifted ++ last :: last.after.turns lowered := by
    rw [turns_append, turns, Turn.after]
  have hdrawn : t.isDone ∧ t.session.pen.isDown := by decide +kernel
  -- The pen is lowered in between without moving, so `last` is the latest turn to have moved it.
  have hbetween : ∀ u ∈ last.after.turns lowered, u.arrival? = none := by decide +kernel
  have horigin : ((fresh.turns earlier).filterMap Turn.arrival?).getLast?.getD fresh.pen.place =
      (.ofHalves 15, .ofHalves (-7)) := by
    rw [← place_executeAll]
    decide +kernel
  have hleft : pixelOf (.ofHalves 15) = .ok 7 := by
    rw [pixelOf, show (Binary64.ofHalves 15).pixel? = some 7 by decide +kernel]
  have htop : pixelOf (.ofHalves (-7)) = .ok (-4) := by
    rw [pixelOf, show (Binary64.ofHalves (-7)).pixel? = some (-4) by decide +kernel]
  obtain ⟨box, hcalls, hx, hy, hshows⟩ :=
    (pen_after_commands.2 fresh _ _ _ t .zero .zero hturns rfl).1 hdrawn
  rw [horigin] at hx hy
  have hbox : box.x1 = 7 ∧ box.y1 = -4 :=
    ⟨Turn.pixelOf_unique hx hleft, Turn.pixelOf_unique hy htop⟩
  have harrival : last.arrival?.isSome := by decide +kernel
  have hlast := hshows (fresh.turns lifted) last (last.after.turns lowered) hsplit harrival hbetween
  rw [hbox.1, hbox.2] at hlast
  exact ⟨hturns, hdrawn, by decide +kernel, hlast, box, hcalls, hbox⟩

end Session

end Sketch
