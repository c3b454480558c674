import Sketch.Pen
import Sketch.Program

/-!
# Drawing sessions

A session is a pen over a surface. Commands are carried out one at a time, and one that fails leaves
the session as it was and does not stop those after it. A program is read as a whole before its
first command is carried out, so a program that is refused draws nothing.
-/

namespace Sketch

/-- What came of a command. -/
inductive Result where
  /-- The command was carried out with this outcome. -/
  | done (outcome : Outcome)
  /-- A fault kept the command from being carried out. -/
  | failed (fault : Fault)
deriving DecidableEq

namespace Result

/-- The words before every fault. -/
def faultMark : Text := ascii "Error executing command: "

/-- The wording of a result: that of its outcome, or `faultMark` and the message of its fault. -/
def text : Result → Text
  | done outcome => outcome.text
  | failed fault => faultMark ++ fault.message

/-- The text `t` is the wording of a fault: it starts with `faultMark`. -/
def isFaultText (t : Text) : Bool := faultMark.isPrefixOf t

end Result

/-- What came of a program. -/
inductive Report where
  /-- The program is blank. -/
  | noCommands
  /-- The program has comments but no tokens. -/
  | noTokens
  /-- The program was refused, and nothing was drawn. -/
  | refused (diagnostic : Diagnostic)
  /-- The commands were carried out with these results. -/
  | ran (results : List Result)
deriving DecidableEq

namespace Report

/-- The error of a program that was refused, which is the message of its diagnostic. -/
def error? : Report → Option Text
  | refused diagnostic => some diagnostic.message
  | noCommands | noTokens | ran _ => none

/-- The program was not refused, so that it has no `error?`. -/
def isOk (r : Report) : Bool := r.error?.isNone

/-- The results of the commands that were tried. A program without commands has none. -/
def results : Report → List Result
  | ran results => results
  | noCommands | noTokens | refused _ => []

/-- How many commands were tried. -/
def commandCount (r : Report) : Nat := r.results.length

/-- How many commands failed, counted by the texts of their results (`Result.isFaultText`). -/
def failedCommands (r : Report) : Nat :=
  r.results.countP fun result => Result.isFaultText result.text

/-- The lines for the results of commands, which are numbered from `n` on. -/
def numbered (n : Nat) : List Result → List Text
  | [] => []
  | result :: results =>
    (ascii "[" ++ Text.ofNat n ++ ascii "] " ++ result.text) :: numbered (n + 1) results

/-- The messages for the user, in order: a line that says how many commands there are, and then the
`numbered` results. -/
def messages : Report → List Text
  | noCommands => [ascii "No commands to execute"]
  | noTokens => [ascii "No valid tokens found"]
  | refused diagnostic => [ascii "Error: " ++ diagnostic.message]
  | ran results =>
    (ascii "Parsed " ++ Text.ofNat results.length ++ ascii " command(s)") :: numbered 1 results

end Report

/-- A pen over a surface. -/
structure Session (σ : Type) where
  pen : Pen
  surface : σ
deriving DecidableEq

namespace Session

variable {σ : Type} [Surface σ]

/-- A fresh session on a `surface`, with a pen in its middle that has the stroke width of the
settings `c`. -/
def start (surface : σ) (c : CanvasConfig) : Session σ :=
  ⟨.start (Surface.width surface) (Surface.height surface) c.strokeWidth, surface⟩

/-- Fill the shapes drawn from now on, or leave them empty, as `fills` says. -/
def setFill (s : Session σ) (fills : Bool) : Session σ := { s with pen := { s.pen with fills } }

/-- Make a `call` on the surface of the session `s`, past the pen. -/
def draw (s : Session σ) (call : Call) : Except Fault (Session σ) :=
  match Surface.draw s.surface call with
  | .error message => .error (.refused message)
  | .ok surface => .ok { s with surface }

/-- Let an effect take place in the session `s`. The pen changes only if the surface takes the call,
and a fault changes nothing. -/
def settle (s : Session σ) : Except Fault Effect → Result × Session σ
  | .error fault => (.failed fault, s)
  | .ok ⟨none, pen, outcome⟩ => (.done outcome, ⟨pen, s.surface⟩)
  | .ok ⟨some call, pen, outcome⟩ =>
    match Surface.draw s.surface call with
    | .error message => (.failed (.refused message), s)
    | .ok surface => (.done outcome, ⟨pen, surface⟩)

/-- Carry out a `command`: what the pen makes of its action takes place (`settle`). -/
def execute (s : Session σ) (command : Command) : Result × Session σ :=
  s.settle (s.pen.obey command.action)

/-- Carry out commands in order, each on the session that the one before it leaves, be it done or
failed. -/
def executeAll (s : Session σ) : List Command → List Result × Session σ
  | [] => ([], s)
  | command :: commands =>
    let (result, s) := s.execute command
    let (results, s) := s.executeAll commands
    (result :: results, s)

/-- The first `command` is carried out on the session `s`, and the other `commands` on the session
that it leaves. -/
theorem executeAll_cons (s : Session σ) (command : Command) (commands : List Command) :
    s.executeAll (command :: commands) =
      ((s.execute command).1 :: ((s.execute command).2.executeAll commands).1,
        ((s.execute command).2.executeAll commands).2) := rfl

/-- Commands `ds` after commands `cs` are carried out on the session that `cs` leave, and the
results follow on one another. -/
theorem executeAll_append (s : Session σ) (cs ds : List Command) :
    s.executeAll (cs ++ ds) =
      ((s.executeAll cs).1 ++ ((s.executeAll cs).2.executeAll ds).1,
        ((s.executeAll cs).2.executeAll ds).2) := by
  induction cs generalizing s with
  | nil => rfl
  | cons c cs ih =>
    rw [List.cons_append, executeAll_cons, executeAll_cons, ih]
    rfl

/-- Carry out `commands` and report their results. -/
def runCommands (s : Session σ) (commands : List Command) : Report × Session σ :=
  let (results, s) := s.executeAll commands
  (.ran results, s)

/-- Read the program `source` and carry out its commands. A blank program, one of comments only and
one that is refused change nothing. -/
def run (s : Session σ) (source : Text) : Report × Session σ :=
  if source.all Byte.isSpace then (.noCommands, s)
  else
    match Token.ofSource source with
    | .error e => (.refused (.lexical e), s)
    | .ok ts =>
      let ts := ts.filter fun t => t.kind ≠ .endOfInput
      if ts.isEmpty then (.noTokens, s)
      else
        match Program.ofTokens ts with
        | .error e => (.refused (.grammatical e), s)
        | .ok commands => s.runCommands commands

end Session

end Sketch
