import Sketch.Proofs.Stages

/-!
# What is asked of a session

A session answers requests one after another (`Session.ask`, `Session.askAll`): it runs programs and
lists of commands, it is told whether to fill shapes, and it passes on calls to its surface. Between
two requests the owner of the surface may change it. The sessions that come about in this way from
a given one are those that it leads to (`Session.LeadsTo`), and from fresh ones the reachable
sessions (`Session.Reachable`).

`Session.Reachable.induction` is how a property of all reachable sessions is shown: it holds at the
start, every command keeps it, and so do the other requests. `Session.LeadsTo.preserves` does the
same for what a given session has.
-/

namespace Sketch

/-- What is asked of a session. -/
inductive Request where
  /-- Read a program and carry out its commands. -/
  | run (source : Text)
  /-- Carry out commands. -/
  | runCommands (commands : List Command)
  /-- Fill the shapes drawn from now on, or leave them empty. -/
  | setFill (fills : Bool)
  /-- Make a call on the surface, past the pen. -/
  | draw (call : Call)
deriving DecidableEq

/-- What comes of a request. -/
inductive Answer where
  /-- Commands were to be carried out, with this report. -/
  | report (report : Report)
  /-- The request was met, and there is nothing to say about it. -/
  | done
  /-- The surface refused the call. -/
  | fault (fault : Fault)
deriving DecidableEq

namespace Session

variable {σ : Type} [Surface σ]

/-- Answer a request of the session `s`. A call that the surface refuses changes nothing. -/
def ask (s : Session σ) : Request → Answer × Session σ
  | .run source => (.report (s.run source).1, (s.run source).2)
  | .runCommands commands => (.report (s.runCommands commands).1, (s.runCommands commands).2)
  | .setFill fills => (.done, s.setFill fills)
  | .draw call =>
    match s.draw call with
    | .ok s' => (.done, s')
    | .error fault => (.fault fault, s)

/-- Answer requests in order, each on the session that the one before it leaves. Each answer comes
with the pen after it. -/
def askAll (s : Session σ) : List Request → List (Answer × Pen) × Session σ
  | [] => ([], s)
  | request :: requests =>
    let (answer, s) := s.ask request
    let (answers, last) := s.askAll requests
    ((answer, s.pen) :: answers, last)

/-- The first `request` is answered by the session `s`, and the other `requests` by the session that
it leaves. -/
theorem askAll_cons (s : Session σ) (request : Request) (requests : List Request) :
    s.askAll (request :: requests) =
      (((s.ask request).1, (s.ask request).2.pen) :: ((s.ask request).2.askAll requests).1,
        ((s.ask request).2.askAll requests).2) := rfl

/-- The session comes about from a fresh one by requests and by changes of the surface. -/
inductive Reachable : Session σ → Prop where
  /-- A session starts on any surface and with any settings. -/
  | start (surface : σ) (c : CanvasConfig) : Reachable (.start surface c)
  /-- A request is answered. -/
  | ask {s : Session σ} (request : Request) : Reachable s → Reachable (s.ask request).2
  /-- The owner of the surface changes it, as by arming a recording against a kind of calls. -/
  | change {s : Session σ} (surface : σ) : Reachable s → Reachable { s with surface }

/-- The second session comes about from the first one by requests and by changes of the surface. -/
inductive LeadsTo (s₀ : Session σ) : Session σ → Prop where
  | refl : LeadsTo s₀ s₀
  /-- A request is answered. -/
  | ask {s : Session σ} (request : Request) : LeadsTo s₀ s → LeadsTo s₀ (s.ask request).2
  /-- The owner of the surface changes it. -/
  | change {s : Session σ} (surface : σ) : LeadsTo s₀ s → LeadsTo s₀ { s with surface }

variable {s : Session σ}

/-- Running the program `source` changes nothing in the session `s`, or it carries out commands `cs`
and reports them. -/
theorem run_snd_eq_or (s : Session σ) (source : Text) :
    (s.run source).2 = s ∨ ∃ cs, s.run source = s.runCommands cs := by
  by_cases hlayout : EndLayout source
  · left
    by_cases hblank : ∀ b ∈ source, b.isSpace
    · rw [run_of_isSpace hblank]
    · rw [run_of_endLayout hblank hlayout]
  · rw [run_of_not_endLayout hlayout]
    cases Program.read false source with
    | error e => exact .inl rfl
    | ok cs => exact .inr ⟨cs, rfl⟩

/-- A property `P` that every command keeps, by `hexecute`, is kept by a list of commands `cs`. -/
theorem executeAll_preserves {P : Session σ → Prop}
    (hexecute : ∀ s c, P s → P (s.execute c).2) (h : P s) (cs : List Command) :
    P (s.executeAll cs).2 := by
  induction cs generalizing s with
  | nil => exact h
  | cons c cs ih => exact ih (hexecute s c h)

/-- A property `P` that every command keeps, and a change of the fill mode or of the surface keeps,
is kept by every `request`. -/
theorem ask_preserves {P : Session σ → Prop} (hexecute : ∀ s c, P s → P (s.execute c).2)
    (hfill : ∀ s fills, P s → P (s.setFill fills))
    (hchange : ∀ (s : Session σ) surface, P s → P { s with surface }) (h : P s)
    (request : Request) : P (s.ask request).2 := by
  cases request with
  | run source =>
    show P (s.run source).2
    -- A program that is refused changes nothing, so no property is lost with it.
    obtain hsame | ⟨cs, hrun⟩ := run_snd_eq_or s source
    · rw [hsame]
      exact h
    · rw [hrun]
      exact executeAll_preserves hexecute h cs
  | runCommands cs => exact executeAll_preserves hexecute h cs
  | setFill fills => exact hfill s fills h
  | draw call =>
    simp only [ask, draw]
    cases Surface.draw s.surface call with
    | error message => exact h
    -- A call past the pen is a change of the surface, whatever the call draws.
    | ok surface => exact hchange s surface h

/-- A property `P` of fresh sessions that every command keeps, and a change of the fill mode or of
the surface keeps, holds of all `Reachable` sessions. -/
theorem Reachable.induction {P : Session σ → Prop} (hstart : ∀ surface c, P (.start surface c))
    (hexecute : ∀ s c, P s → P (s.execute c).2)
    (hfill : ∀ s fills, P s → P (s.setFill fills))
    (hchange : ∀ (s : Session σ) surface, P s → P { s with surface }) (h : s.Reachable) : P s := by
  induction h with
  | start surface c => exact hstart surface c
  | ask request _ ih => exact ask_preserves hexecute hfill hchange ih request
  | change surface _ ih => exact hchange _ surface ih

/-- A property `P` of the session `s₀` that every command keeps, and a change of the fill mode or of
the surface keeps, still holds of the sessions `s₀` leads to. -/
theorem LeadsTo.preserves {P : Session σ → Prop} {s₀ : Session σ}
    (hexecute : ∀ s c, P s → P (s.execute c).2) (hfill : ∀ s fills, P s → P (s.setFill fills))
    (hchange : ∀ (s : Session σ) surface, P s → P { s with surface }) (h : s₀.LeadsTo s)
    (h₀ : P s₀) : P s := by
  induction h with
  | refl => exact h₀
  | ask request _ ih => exact ask_preserves hexecute hfill hchange ih request
  | change surface _ ih => exact hchange _ surface ih

end Session

end Sketch
