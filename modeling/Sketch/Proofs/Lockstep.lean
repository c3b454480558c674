import Sketch.Proofs.Requests

/-!
# Sessions in lockstep

A session learns nothing from its surface but whether a call is refused, and with what message. So
two sessions with equal pens, over surfaces that take and refuse the same calls, give the same
answers and keep equal pens, however much the surfaces differ otherwise
(`Session.askAll_inLockstep`).

`Lockstep` says of a relation between surfaces that every call keeps it. What it takes to keep it
over a whole session is shown for one effect (`Session.settle_inLockstep`) and carried from there
through commands, programs and requests.
-/

namespace Sketch

variable {σ τ : Type}

/-- A call is taken by both surfaces, which stay related by `R`, or it is refused by both with the
same message. -/
inductive DrawnAlike (R : σ → τ → Prop) : Except Text σ → Except Text τ → Prop
  | taken {a : σ} {b : τ} : R a b → DrawnAlike R (.ok a) (.ok b)
  | refused (message : Text) : DrawnAlike R (.error message) (.error message)

variable [Surface σ] [Surface τ]

/-- Every call keeps surfaces that are related by `R` related, or is refused by both (`DrawnAlike`).
-/
def Lockstep (R : σ → τ → Prop) : Prop :=
  ∀ a b call, R a b → DrawnAlike R (Surface.draw a call) (Surface.draw b call)

namespace Session

/-- The two sessions `s` and `t` have equal pens, and surfaces that are related by `R`. -/
structure Alike (R : σ → τ → Prop) (s : Session σ) (t : Session τ) : Prop where
  pen : s.pen = t.pen
  surface : R s.surface t.surface

/-- What comes of the two sessions is the same, and they are `Alike` afterwards. -/
structure InLockstep {α : Type} (R : σ → τ → Prop) (x : α × Session σ) (y : α × Session τ) :
    Prop where
  result : x.1 = y.1
  session : Alike R x.2 y.2

variable {R : σ → τ → Prop} {s : Session σ} {t : Session τ}

/-- An `effect` takes place in both of two alike sessions or in none, and has the same result. -/
theorem settle_inLockstep (hR : Lockstep R) (h : Alike R s t) (effect : Except Fault Effect) :
    InLockstep R (s.settle effect) (t.settle effect) := by
  match effect with
  | .error fault => exact ⟨rfl, h⟩
  | .ok ⟨none, pen, outcome⟩ => exact ⟨rfl, rfl, h.surface⟩
  | .ok ⟨some call, pen, outcome⟩ =>
    have hdraw := hR _ _ call h.surface
    simp only [settle]
    generalize Surface.draw s.surface call = x at hdraw ⊢
    generalize Surface.draw t.surface call = y at hdraw ⊢
    cases hdraw with
    | taken hsurface => exact ⟨rfl, rfl, hsurface⟩
    | refused message => exact ⟨rfl, h⟩

/-- A command `c` has the same result in two alike sessions, which stay alike. -/
theorem execute_inLockstep (hR : Lockstep R) (h : Alike R s t) (c : Command) :
    InLockstep R (s.execute c) (t.execute c) := by
  rw [execute, execute, h.pen]
  exact settle_inLockstep hR h _

/-- Commands `cs` have the same results in two alike sessions, one after the other. -/
theorem executeAll_inLockstep (hR : Lockstep R) (h : Alike R s t) (cs : List Command) :
    InLockstep R (s.executeAll cs) (t.executeAll cs) := by
  induction cs generalizing s t with
  | nil => exact ⟨rfl, h⟩
  | cons c cs ih =>
    obtain ⟨hresult, hsession⟩ := execute_inLockstep hR h c
    obtain ⟨hresults, hlast⟩ := ih hsession
    rw [executeAll_cons, executeAll_cons, hresult, hresults]
    exact ⟨rfl, hlast⟩

/-- Commands `cs` are reported the same in two alike sessions. -/
theorem runCommands_inLockstep (hR : Lockstep R) (h : Alike R s t) (cs : List Command) :
    InLockstep R (s.runCommands cs) (t.runCommands cs) := by
  obtain ⟨hresults, hlast⟩ := executeAll_inLockstep hR h cs
  exact ⟨congrArg Report.ran hresults, hlast⟩

/-- A program `source` is reported the same in two alike sessions. Whether it is refused does not
depend on the surface. -/
theorem run_inLockstep (hR : Lockstep R) (h : Alike R s t) (source : Text) :
    InLockstep R (s.run source) (t.run source) := by
  by_cases hlayout : EndLayout source
  · by_cases hblank : ∀ b ∈ source, b.isSpace
    · rw [run_of_isSpace hblank, run_of_isSpace hblank]
      exact ⟨rfl, h⟩
    · rw [run_of_endLayout hblank hlayout, run_of_endLayout hblank hlayout]
      exact ⟨rfl, h⟩
  · rw [run_of_not_endLayout hlayout, run_of_not_endLayout hlayout]
    cases Program.read false source with
    | error e => exact ⟨rfl, h⟩
    | ok cs => exact runCommands_inLockstep hR h cs

/-- A `request` is answered the same in two alike sessions, which stay alike. -/
theorem ask_inLockstep (hR : Lockstep R) (h : Alike R s t) (request : Request) :
    InLockstep R (s.ask request) (t.ask request) := by
  cases request with
  | run source =>
    obtain ⟨hreport, hlast⟩ := run_inLockstep hR h source
    exact ⟨congrArg Answer.report hreport, hlast⟩
  | runCommands cs =>
    obtain ⟨hreport, hlast⟩ := runCommands_inLockstep hR h cs
    exact ⟨congrArg Answer.report hreport, hlast⟩
  | setFill fills => exact ⟨rfl, congrArg (fun pen : Pen => { pen with fills }) h.pen, h.surface⟩
  | draw call =>
    -- A call past the pen is the one request that the surfaces themselves answer.
    have hdraw := hR _ _ call h.surface
    simp only [ask, draw]
    generalize Surface.draw s.surface call = x at hdraw ⊢
    generalize Surface.draw t.surface call = y at hdraw ⊢
    cases hdraw with
    | taken hsurface => exact ⟨rfl, h.pen, hsurface⟩
    | refused message => exact ⟨rfl, h⟩

/-- The `requests` are answered the same in two alike sessions, and the pens are equal after each of
them. -/
theorem askAll_inLockstep (hR : Lockstep R) (h : Alike R s t) (requests : List Request) :
    InLockstep R (s.askAll requests) (t.askAll requests) := by
  induction requests generalizing s t with
  | nil => exact ⟨rfl, h⟩
  | cons request requests ih =>
    obtain ⟨hanswer, hsession⟩ := ask_inLockstep hR h request
    obtain ⟨hanswers, hlast⟩ := ih hsession
    rw [askAll_cons, askAll_cons, hanswer, hanswers, hsession.pen]
    exact ⟨rfl, hlast⟩

end Session

end Sketch
