import Sketch.Session
import Sketch.Surface.Recording

/-!
# A failed command leaves no trace

A command is a series of steps that change the session in place: coordinates are turned into pixels,
a call is made on the surface, and the pen is moved. A step that faults ends the series and keeps
what the steps before it did. `Session.steps` gives the steps of every command, and
`Session.execute_eq_take` shows that carrying out a command is to take its steps. No step that can
fault follows one that changes the session, so a command that fails changes nothing, and the
commands of a program that fail can be left out of it (`Session.failed_commands_leave_no_trace`).
-/

namespace Sketch

/-- The wording of a result `r` tells whether the command failed: no outcome is worded as a fault
is. -/
theorem Result.isFaultText_text_iff (r : Result) :
    isFaultText r.text ↔ ∃ fault, r = failed fault := by
  cases r with
  | done outcome =>
    have houtcome : isFaultText (done outcome).text = false := by cases outcome <;> rfl
    simp [houtcome]
  | failed fault => simp [text, isFaultText]

namespace Session

variable {σ : Type}

/-! ## Commands in steps -/

/-- Steps that change a session in place and give a value. A fault ends them and keeps what they did
so far. -/
abbrev Steps (σ α : Type) := ExceptT Fault (StateM (Session σ)) α

/-- The session after taking `steps` from `s`, and what came of them. A fault is caught where it
arises, with the session as the steps before it left it. -/
def take (steps : Steps σ Outcome) (s : Session σ) : Result × Session σ :=
  match steps s with
  | (.ok outcome, s) => (.done outcome, s)
  | (.error fault, s) => (.failed fault, s)

/-- The step that turns a `coordinate` into a pixel. It changes nothing. -/
def pixelStep (coordinate : Binary64) : Steps σ Pixel := liftExcept (pixelOf coordinate)

/-- The step that makes a `change` of the pen. -/
def penStep (change : Pen → Pen) : Steps σ Unit := modify fun s => { s with pen := change s.pen }

variable {s s' : Session σ}

/-- A fault of a `step` ends the steps, so that `next` is not taken, and the session stays as the
faulty step left it. -/
theorem take_of_fault {α : Type} {step : Steps σ α} {next : α → Steps σ Outcome} {fault : Fault}
    (h : step s = (.error fault, s')) : take (step >>= next) s = (.failed fault, s') := by
  have hbind : (step >>= next) s = (.error fault, s') := by
    simp only [bind, ExceptT.bind, ExceptT.mk, StateT.bind, h]
    rfl
  rw [take, hbind]

/-- After a `step` without a fault come the steps of `next`, on the session `s'` as it left it. -/
theorem take_of_ok {α : Type} {step : Steps σ α} {next : α → Steps σ Outcome} {a : α}
    (h : step s = (.ok a, s')) : take (step >>= next) s = take (next a) s' := by
  have hbind : (step >>= next) s = next a s' := by
    simp only [bind, ExceptT.bind, ExceptT.mk, StateT.bind, h]
    rfl
  rw [take, take, hbind]

/-- Looking at the session changes nothing: the steps of `next` are taken from the same `s`. -/
theorem take_get {next : Session σ → Steps σ Outcome} :
    take (get >>= next) s = take (next s) s := rfl

variable [Surface σ]

/-- The step that makes a `call` on the surface, which may refuse it. -/
def callStep (call : Call) : Steps σ Unit := do
  let s ← get
  match Surface.draw s.surface call with
  | .ok surface => set { s with surface }
  | .error message => throw (.refused message)

/-- The steps of an action, in order: all its coordinates become pixels, then the surface is called,
and then the pen changes. -/
def steps : Action → Steps σ Outcome
  | .drawLine x1 y1 x2 y2 => do
    let box : Box := ⟨← pixelStep x1, ← pixelStep y1, ← pixelStep x2, ← pixelStep y2⟩
    let p := (← get).pen
    callStep (.line box p.color p.strokeWidth)
    penStep (·.follow x2 y2)
    return .drewLine box.x1 box.y1 box.x2 box.y2
  | .drawCircle x y radius => do
    let box : Box :=
      ⟨← pixelStep (x.sub radius), ← pixelStep (y.sub radius), ← pixelStep (x.add radius),
        ← pixelStep (y.add radius)⟩
    let cx ← pixelStep x
    let cy ← pixelStep y
    let r ← pixelStep radius
    let p := (← get).pen
    callStep (.ellipse box p.color p.fill p.strokeWidth)
    penStep (·.follow x y)
    return .drewCircle cx cy r
  | .drawRectangle x y width height => do
    let right := x.add width
    let bottom := y.add height
    let box : Box := ⟨← pixelStep x, ← pixelStep y, ← pixelStep right, ← pixelStep bottom⟩
    let w ← pixelStep width
    let h ← pixelStep height
    let p := (← get).pen
    callStep (.rectangle box p.color p.fill p.strokeWidth)
    penStep (·.follow right bottom)
    return .drewRectangle box.x1 box.y1 w h
  | .setColor name => do
    penStep fun p => { p with color := .ofName name }
    return .colorSet name
  | .clear => do
    callStep .clear
    return .cleared
  | .move x y => do
    let px ← pixelStep x
    let py ← pixelStep y
    let p := (← get).pen
    if p.isDown then do
      let box : Box := ⟨← pixelStep p.x, ← pixelStep p.y, px, py⟩
      callStep (.line box p.color p.strokeWidth)
    penStep fun p => { p with x := x, y := y }
    return .moved px py
  | .penUp => do
    penStep fun p => { p with isDown := false }
    return .lifted
  | .penDown => do
    penStep fun p => { p with isDown := true }
    return .lowered

/-- A coordinate `x` without a pixel ends the steps and the `effect` alike, and with a pixel both go
on. -/
theorem take_pixelStep {x : Binary64} {next : Pixel → Steps σ Outcome}
    {effect : Pixel → Except Fault Effect} (h : ∀ p, take (next p) s = s.settle (effect p)) :
    take (pixelStep x >>= next) s = s.settle (pixelOf x >>= effect) := by
  cases hx : pixelOf x with
  | error fault =>
    have hstep : pixelStep x s = (.error fault, s) := by rw [pixelStep, hx]; rfl
    rw [take_of_fault hstep]
    rfl
  | ok p =>
    have hstep : pixelStep x s = (.ok p, s) := by rw [pixelStep, hx]; rfl
    rw [take_of_ok hstep, h p]
    rfl

/-- What a `call` does in place: the surface changes, and nothing else does, unless it refuses. -/
theorem callStep_eq (call : Call) :
    (callStep call : Steps σ Unit) s =
      match Surface.draw s.surface call with
      | .ok surface => (.ok (), { s with surface })
      | .error message => (.error (.refused message), s) := by
  show (match Surface.draw s.surface call with
    | .ok surface => set { s with surface }
    | .error message => throw (.refused message) : Steps σ Unit) s = _
  cases Surface.draw s.surface call <;> rfl

/-- A `call` and a `change` of the pen after it are an effect: the pen stays if the call is refused.
-/
theorem take_callStep (call : Call) (change : Pen → Pen) (outcome : Outcome) :
    take (do callStep call; penStep change; return outcome) s =
      s.settle (.ok ⟨some call, change s.pen, outcome⟩) := by
  have hcall := callStep_eq (s := s) call
  cases hd : Surface.draw s.surface call with
  | error message =>
    rw [hd] at hcall
    rw [take_of_fault hcall]
    simp only [settle, hd]
  | ok surface =>
    rw [hd] at hcall
    rw [take_of_ok hcall]
    simp only [settle, hd]
    rfl

/-- To carry out a command `c` by its effect is to take its `steps`, which change the session in
place. -/
theorem execute_eq_take (c : Command) : s.execute c = take (steps c.action) s := by
  rw [execute]
  symm
  -- Each action turns its coordinates into pixels and then makes its one call, in place as in
  -- effect.
  cases c.action with
  | drawLine x1 y1 x2 y2 =>
    refine take_pixelStep fun px1 => take_pixelStep fun py1 => take_pixelStep fun px2 =>
      take_pixelStep fun py2 => ?_
    exact take_callStep _ _ _
  | drawCircle x y radius =>
    refine take_pixelStep fun left => take_pixelStep fun top => take_pixelStep fun right =>
      take_pixelStep fun bottom => ?_
    refine take_pixelStep fun cx => take_pixelStep fun cy => take_pixelStep fun r => ?_
    exact take_callStep _ _ _
  | drawRectangle x y width height =>
    refine take_pixelStep fun left => take_pixelStep fun top => take_pixelStep fun right =>
      take_pixelStep fun bottom => ?_
    refine take_pixelStep fun w => take_pixelStep fun h => ?_
    exact take_callStep _ _ _
  | setColor name => rfl
  | clear => exact take_callStep .clear id .cleared
  | move x y =>
    refine take_pixelStep fun px => take_pixelStep fun py => ?_
    -- After two pixels the steps part: only a pen that is down needs two more and draws.
    by_cases hdown : s.pen.isDown
    · show take (get >>= _) s = s.settle (if s.pen.isDown then _ else _)
      rw [take_get, if_pos hdown, if_pos hdown]
      refine take_pixelStep fun left => take_pixelStep fun top => ?_
      exact take_callStep _ (fun p => { p with x := x, y := y }) _
    · show take (get >>= _) s = s.settle (if s.pen.isDown then _ else _)
      rw [take_get, if_neg hdown, if_neg hdown]
      rfl
  | penUp => rfl
  | penDown => rfl

/-! ## Failed commands -/

/-- A session `s` that settles on a fault is as it was. -/
theorem settle_of_failed {effect : Except Fault Effect} {fault : Fault}
    (h : (s.settle effect).1 = .failed fault) : (s.settle effect).2 = s := by
  revert h
  fun_cases settle s effect with
  | case1 => exact fun _ => rfl
  | case2 => exact fun h => nomatch h
  | case3 call pen outcome message hd => exact fun _ => rfl
  | case4 call pen outcome surface hd => exact fun h => nomatch h

/-- A command `c` that fails leaves the session `s` as it was: the pen, the surface and all
settings. -/
theorem execute_of_isFaultText {c : Command} (h : Result.isFaultText (s.execute c).1.text) :
    (s.execute c).2 = s := by
  obtain ⟨fault, hfault⟩ := (Result.isFaultText_text_iff _).1 h
  exact settle_of_failed hfault

/-- The commands of `cs` that do not fail when all of them are carried out in order, from the
session `s`. -/
def survivors (s : Session σ) (cs : List Command) : List Command :=
  ((cs.zip (s.executeAll cs).1).filter fun p => !Result.isFaultText p.2.text).map Prod.fst

/-- A command `c` that fails is left out of the `survivors`, and those after it start on the same
session `s`. -/
theorem survivors_of_fault {c : Command} {cs : List Command}
    (h : Result.isFaultText (s.execute c).1.text) : s.survivors (c :: cs) = s.survivors cs := by
  have hs := execute_of_isFaultText h
  simp only [survivors, executeAll, List.zip_cons_cons]
  rw [List.filter_cons_of_neg (by simp [h]), hs]

/-- A command `c` that does not fail is among the `survivors`, and those after it see what it did.
-/
theorem survivors_of_done {c : Command} {cs : List Command}
    (h : ¬Result.isFaultText (s.execute c).1.text) :
    s.survivors (c :: cs) = c :: (s.execute c).2.survivors cs := by
  simp only [survivors, executeAll, List.zip_cons_cons]
  rw [List.filter_cons_of_pos (by simp [h]), List.map_cons]

/-- Without the commands that fail, the `survivors` of `cs` do what they did among all of them, with
the same results. -/
theorem executeAll_survivors (s : Session σ) (cs : List Command) :
    s.executeAll (s.survivors cs) =
      ((s.executeAll cs).1.filter fun r => !Result.isFaultText r.text, (s.executeAll cs).2) := by
  -- Each command starts from the same session in both runs, since a failed one changes nothing.
  induction cs generalizing s with
  | nil => rfl
  | cons c cs ih =>
    by_cases h : Result.isFaultText (s.execute c).1.text
    · have hs := execute_of_isFaultText h
      rw [survivors_of_fault h, ih s]
      simp only [executeAll, hs]
      rw [List.filter_cons_of_neg (by simp [h])]
    · rw [survivors_of_done h]
      simp only [executeAll, ih (s.execute c).2]
      rw [List.filter_cons_of_pos (by simp [h])]

/-- A failed command leaves no trace. Carrying out a command is to take its steps, which change the
session in place, and if that ends in a fault, the session is as it was. So the failed commands of
a list can be left out: the others leave the same pen and the same surface without them, and none
of them fails. -/
theorem failed_commands_leave_no_trace (s : Session σ) :
    (∀ c, s.execute c = take (steps c.action) s ∧
      (Result.isFaultText (s.execute c).1.text → (s.execute c).2 = s)) ∧
    ∀ cs, (s.runCommands (s.survivors cs)).2 = (s.runCommands cs).2 ∧
      (s.runCommands (s.survivors cs)).1.failedCommands = 0 := by
  refine ⟨fun c => ⟨execute_eq_take c, execute_of_isFaultText⟩, fun cs => ?_⟩
  -- The survivors give the results of the whole run but for the faults, and the same last state.
  have hrun : s.runCommands (s.survivors cs) =
      (.ran ((s.executeAll cs).1.filter fun r => !Result.isFaultText r.text),
        (s.executeAll cs).2) := by
    rw [runCommands, executeAll_survivors]
  rw [hrun]
  refine ⟨rfl, ?_⟩
  show List.countP _ (List.filter _ _) = 0
  rw [List.countP_eq_zero]
  intro r hr
  have hdone := (List.mem_filter.1 hr).2
  simpa using hdone

/-- A fresh session on a recording that refuses to be wiped. -/
def indelible : Session Recording := .start ⟨800, 600, [], some (.clear, ascii "ink is dry")⟩ {}

/-- Of four commands one has a coordinate without a pixel and one is refused by the surface. The
other two alone leave the same pen and the same recording. -/
theorem refused_clear_leaves_no_trace :
    let place : Position := ⟨1, 0⟩
    let astray : Command := ⟨.move .nan .zero, place⟩
    let color : Command := ⟨.setColor (ascii "red"), place⟩
    let clear : Command := ⟨.clear, place⟩
    let lift : Command := ⟨.penUp, place⟩
    Result.isFaultText (indelible.execute clear).1.text ∧
      (indelible.execute clear).2 = indelible ∧
      indelible.survivors [astray, color, clear, lift] = [color, lift] ∧
      (indelible.runCommands [color, lift]).2 =
        (indelible.runCommands [astray, color, clear, lift]).2 := by
  intro place astray color clear lift
  have hfault : Result.isFaultText (indelible.execute clear).1.text := by decide
  have hsurvivors : indelible.survivors [astray, color, clear, lift] = [color, lift] := by decide
  obtain ⟨hcommand, hrun⟩ := failed_commands_leave_no_trace indelible
  exact ⟨hfault, (hcommand clear).2 hfault, hsurvivors, hsurvivors ▸ (hrun _).1⟩

end Session

end Sketch
