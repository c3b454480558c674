import Sketch.Canvas
import Sketch.Surface

/-!
# Recording surfaces

A recording keeps every call in order. It can be armed to refuse one kind of calls, so that the
effect of a failing surface can be studied; a refused call is not kept.
-/

namespace Sketch

/-- A surface that keeps the calls on it. It refuses the calls of at most one kind, if it is armed
against them (`refusal`). -/
structure Recording where
  /-- The width in pixels. -/
  width : Int32
  /-- The height in pixels. -/
  height : Int32
  /-- The calls, in order. -/
  calls : List Call
  /-- The kind of calls to refuse and the message of the refusal. -/
  refusal : Option (CallKind × Text)
deriving DecidableEq

namespace Recording

/-- An empty recording of the size in the settings `c`, if these have no problem. -/
def ofConfig (c : CanvasConfig) : Except ConfigProblem Recording :=
  c.guarded ⟨c.width, c.height, [], none⟩

/-- The message of the refusal of calls of the given `kind`, if the recording `r` is armed against
it. -/
def refusal? (r : Recording) (kind : CallKind) : Option Text :=
  r.refusal.bind fun (refused, message) => if refused = kind then some message else none

/-- Keep a `call` behind the others, or refuse it with the message of `refusal?`. -/
def record (r : Recording) (call : Call) : Except Text Recording :=
  match r.refusal? call.kind with
  | some message => .error message
  | none => .ok { r with calls := r.calls ++ [call] }

/-- How many calls of the given `kind` were kept. -/
def count (r : Recording) (kind : CallKind) : Nat := r.calls.countP fun call => call.kind == kind

/-- Drop the calls kept so far. The `refusal` stays. -/
def reset (r : Recording) : Recording := { r with calls := [] }

/-- Refuse all later calls of the given `kind` with the `message`, and no other calls any more. -/
def refuse (r : Recording) (kind : CallKind) (message : Text) : Recording :=
  { r with refusal := some (kind, message) }

instance : Surface Recording where
  width := width
  height := height
  draw := record

end Recording

end Sketch
