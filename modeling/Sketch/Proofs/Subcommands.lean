import Sketch.Proofs.Lines
import Sketch.Proofs.Render

/-!
# The subcommands refuse the same programs

Each subcommand reads a program in its own way: `parse` takes its tokens without the last one and
looks for statements, and the other two hand the program to a session.
`CommandLine.subcommands_refuse_alike` shows that they refuse the same programs, for the same reason
and without writing a file. All three are run on one file, and what comes of them depends on whether
the program in it is accepted (`CommandLine.run_parse`, `CommandLine.run_render_of_read`,
`CommandLine.run_trace`). A program that is accepted may still end badly, but this is worded in
another way (`CommandLine.message_ne_cannotWrite`).

Log lines are left out of what a run prints.
-/

namespace Sketch

/-- A program that is refused for `d` is reported with the message of `d`, and with nothing else. -/
theorem Session.report_of_refusal {σ : Type} [Surface σ] (s : Session σ) {source : Text}
    {d : Diagnostic} (h : Program.ofSource source = .error d) :
    (s.run source).1.error? = some d.message ∧
      (s.run source).1.messages = [CommandLine.errorLine d.message] := by
  rw [run_of_refusal (Program.read_false ▸ h)]
  exact ⟨rfl, rfl⟩

namespace CommandLine

/-- The run `r` exits with 1 and prints the `message`, and nothing else, to standard error. -/
def ExitsWith (r : Ending × FileTree) (message : Text) : Prop :=
  ∃ stdout, r.1 = .exited ⟨1, stdout, line message⟩

/-- The program `source` is refused with the `message`. -/
def IsRefusedWith (source message : Text) : Prop :=
  ∃ d, Program.ofSource source = .error d ∧ d.message = message

/-- The `arguments` make sense as the options `o`, and the `path` in them is that of the program. -/
structure Names (arguments : List Argument) (o : Options) (path : Text) : Prop where
  options : Options.ofArguments arguments = .ok o
  input : o.input = path

variable {t : FileTree} {message message' path source stdout : Text}

/-- A run that has exited with a `message` has not exited with another one. -/
theorem exitsWith_exited_iff :
    ExitsWith (.exited ⟨1, stdout, line message⟩, t) message' ↔ message = message' := by
  constructor
  · rintro ⟨stdout', h⟩
    simp only [Ending.exited.injEq, Exit.mk.injEq, true_and] at h
    exact List.append_cancel_right h.2
  · rintro rfl
    exact ⟨stdout, rfl⟩

/-- No refusal `d` is worded as the failure to write a file is. -/
theorem message_ne_cannotWrite (d : Diagnostic) (path : Text) : d.message ≠ cannotWrite path := by
  intro h
  have hfirst : d.message.head? = (ascii "Cannot").head? := by
    rw [h]
    rfl
  rw [Diagnostic.message_eq, List.append_assoc] at hfirst
  cases d with
  | lexical e => cases hfirst
  | grammatical e => cases hfirst

/-! ## The three runs -/

variable (program : Argument) {arguments : List Argument} {o : Options}

/-- What `parse` does with a program that can be read: it prints why it is refused, or lacks the
writing of data. -/
theorem run_parse (h : Names arguments o path) (houtput : o.output ≠ [])
    (hsource : t.read path = .content source) :
    run (m := StateM FileTree) program (.ofText (ascii "parse") :: arguments) t =
      match Program.ofSource source with
      | .error d => (fail [] d.message, t)
      | .ok _ => (.lacking .commandsOutput, t) := by
  have hpaths : ¬ (o.input.isEmpty ∨ o.output.isEmpty) := by
    simp [h.input, ne_nil_of_read hsource, houtput]
  show withOptions (m := StateM FileTree) arguments parse t = _
  rw [withOptions, h.options]
  show parse (m := StateM FileTree) o t = _
  rw [parse, if_neg hpaths, withProgram_apply, h.input, hsource]
  dsimp only
  cases Program.ofSource source <;> rfl

/-- What `trace` does with a program that can be read: it prints why it is refused, or lacks the
writing of data. -/
theorem run_trace (h : Names arguments o path) (hconfig : o.config = none)
    (hjson : ¬ Path.isCommandsFile path) (hsource : t.read path = .content source) :
    run (m := StateM FileTree) program (.ofText (ascii "trace") :: arguments) t =
      match ((Session.start (⟨800, 600, [], none⟩ : Recording) {}).run source).1.error? with
      | some message => (fail [] (errorLine message), t)
      | none => (.lacking .traceOutput, t) := by
  have hinput : ¬ o.input.isEmpty := by simp [h.input, ne_nil_of_read hsource]
  have hcommands : ¬ Path.isCommandsFile o.input := h.input ▸ hjson
  show withOptions (m := StateM FileTree) arguments trace t = _
  rw [withOptions, h.options]
  show trace (m := StateM FileTree) o t = _
  rw [trace, if_neg hinput, hconfig, commandsPath, if_neg hcommands]
  show withProgram (m := StateM FileTree) o.input _ t = _
  rw [withProgram_apply, h.input, hsource]
  dsimp only
  -- Nothing but the error decides, so the run itself stays closed.
  generalize ((Session.start (⟨800, 600, [], none⟩ : Recording) {}).run source).1.error? = e
  cases e <;> rfl

/-! ## Refused programs -/

/-- A program that is refused for `d` makes `parse` print the message of `d`. -/
theorem run_parse_of_refusal {d : Diagnostic} (h : Names arguments o path) (houtput : o.output ≠ [])
    (hsource : t.read path = .content source) (hd : Program.ofSource source = .error d) :
    run (m := StateM FileTree) program (.ofText (ascii "parse") :: arguments) t =
      (.exited ⟨1, [], line d.message⟩, t) := by
  rw [run_parse program h houtput hsource, hd]
  rfl

/-- A program that is refused for `d` makes `render` print the message of `d` twice, on standard
output and on standard error. -/
theorem run_render_of_refusal {d : Diagnostic} (h : Names arguments o path)
    (hconfig : o.config = none) (hjson : ¬ Path.isCommandsFile path)
    (hsource : t.read path = .content source) (hd : Program.ofSource source = .error d) :
    run (m := StateM FileTree) program (.ofText (ascii "render") :: arguments) t =
      (.exited ⟨1, line (errorLine d.message), line (errorLine d.message)⟩, t) := by
  obtain ⟨herror, hmessages⟩ :=
    (Session.start (SvgPicture.onCanvas {} []) {}).report_of_refusal hd
  rw [run_render_of_read program h.options hconfig (h.input ▸ hjson) (h.input ▸ hsource),
    finishPicture_apply, drawn, herror, hmessages]
  simp [fail, lines]

/-- A program that is refused for `d` makes `trace` print the message of `d` as an error line. -/
theorem run_trace_of_refusal {d : Diagnostic} (h : Names arguments o path)
    (hconfig : o.config = none) (hjson : ¬ Path.isCommandsFile path)
    (hsource : t.read path = .content source) (hd : Program.ofSource source = .error d) :
    run (m := StateM FileTree) program (.ofText (ascii "trace") :: arguments) t =
      (.exited ⟨1, [], line (errorLine d.message)⟩, t) := by
  obtain ⟨herror, -⟩ :=
    (Session.start (⟨800, 600, [], none⟩ : Recording) {}).report_of_refusal hd
  rw [run_trace program h hconfig hjson hsource, herror]
  rfl

/-- The subcommand `parse` exits with a `message` exactly if the program is refused with it. -/
theorem exitsWith_parse_iff (h : Names arguments o path) (houtput : o.output ≠ [])
    (hsource : t.read path = .content source) :
    ExitsWith (run (m := StateM FileTree) program (.ofText (ascii "parse") :: arguments) t)
        message ↔ IsRefusedWith source message := by
  cases hd : Program.ofSource source with
  | error d =>
    rw [run_parse_of_refusal program h houtput hsource hd, exitsWith_exited_iff]
    simp [IsRefusedWith, hd]
  | ok cs =>
    rw [run_parse program h houtput hsource, hd]
    simp [ExitsWith, IsRefusedWith, hd]

/-- The subcommand `render` exits with the message of `d` exactly if the program is refused with it.
-/
theorem exitsWith_render_iff (h : Names arguments o path) (hconfig : o.config = none)
    (hjson : ¬ Path.isCommandsFile path) (hsource : t.read path = .content source)
    (d : Diagnostic) :
    ExitsWith (run (m := StateM FileTree) program (.ofText (ascii "render") :: arguments) t)
        (errorLine d.message) ↔ IsRefusedWith source d.message := by
  cases hd : Program.ofSource source with
  | error d' =>
    rw [run_render_of_refusal program h hconfig hjson hsource hd, exitsWith_exited_iff]
    simp [IsRefusedWith, hd, errorLine]
  | ok cs =>
    refine iff_of_false ?_ (by simp [IsRefusedWith, hd])
    have herror : (drawn source).1.error? = none := Session.error?_run_eq_none_iff.mpr ⟨cs, hd⟩
    rw [run_render_of_read program h.options hconfig (h.input ▸ hjson) (h.input ▸ hsource),
      finishPicture_apply, herror]
    dsimp only
    split
    · -- The run fails, since it cannot write.
      rw [fail, exitsWith_exited_iff]
      exact fun hmessage => message_ne_cannotWrite d _ (List.append_cancel_left hmessage).symm
    · rintro ⟨stdout, hends⟩
      cases hends

/-- The subcommand `trace` exits with a message exactly if the program is refused with it. -/
theorem exitsWith_trace_iff (h : Names arguments o path) (hconfig : o.config = none)
    (hjson : ¬ Path.isCommandsFile path) (hsource : t.read path = .content source) :
    ExitsWith (run (m := StateM FileTree) program (.ofText (ascii "trace") :: arguments) t)
        (errorLine message) ↔ IsRefusedWith source message := by
  cases hd : Program.ofSource source with
  | error d =>
    rw [run_trace_of_refusal program h hconfig hjson hsource hd, exitsWith_exited_iff]
    simp [IsRefusedWith, hd, errorLine]
  | ok cs =>
    have herror :
        ((Session.start (⟨800, 600, [], none⟩ : Recording) {}).run source).1.error? = none :=
      Session.error?_run_eq_none_iff.mpr ⟨cs, hd⟩
    rw [run_trace program h hconfig hjson hsource, herror]
    simp [ExitsWith, IsRefusedWith, hd]

/-- On one readable file that is no stored list of commands, the three subcommands refuse the same
programs for the same reason: checking exits with 1 and the message of a diagnosis exactly if
drawing and recording do, which put `Error: ` before it. No file is changed then, and only drawing
prints the message to standard output as well. Checking has to be given an output, and the other two
no settings. -/
theorem subcommands_refuse_alike (program : Argument) {t : FileTree} {path source : Text}
    (hsource : t.read path = .content source) (hjson : ¬ Path.isCommandsFile path)
    {parsing rendering tracing : List Argument} {o o' o'' : Options}
    (hparse : Names parsing o path) (houtput : o.output ≠ [])
    (hrender : Names rendering o' path) (hrender' : o'.config = none)
    (htrace : Names tracing o'' path) (htrace' : o''.config = none) (d : Diagnostic) :
    let parsed := run (m := StateM FileTree) program (.ofText (ascii "parse") :: parsing) t
    let rendered := run (m := StateM FileTree) program (.ofText (ascii "render") :: rendering) t
    let traced := run (m := StateM FileTree) program (.ofText (ascii "trace") :: tracing) t
    (ExitsWith parsed d.message ↔ ExitsWith rendered (errorLine d.message)) ∧
    (ExitsWith parsed d.message ↔ ExitsWith traced (errorLine d.message)) ∧
    (ExitsWith parsed d.message →
      parsed = (.exited ⟨1, [], line d.message⟩, t) ∧
      rendered = (.exited ⟨1, line (errorLine d.message), line (errorLine d.message)⟩, t) ∧
      traced = (.exited ⟨1, [], line (errorLine d.message)⟩, t)) := by
  intro parsed rendered traced
  -- Each of the three is reduced to whether the source is refused, and compared with the others
  -- there.
  have hparsed : ExitsWith parsed d.message ↔ IsRefusedWith source d.message :=
    exitsWith_parse_iff program hparse houtput hsource
  have hrendered : ExitsWith rendered (errorLine d.message) ↔ IsRefusedWith source d.message :=
    exitsWith_render_iff program hrender hrender' hjson hsource d
  have htraced : ExitsWith traced (errorLine d.message) ↔ IsRefusedWith source d.message :=
    exitsWith_trace_iff program htrace htrace' hjson hsource
  refine ⟨hparsed.trans hrendered.symm, hparsed.trans htraced.symm, fun hexits => ?_⟩
  obtain ⟨d', hd', hmessage⟩ := hparsed.mp hexits
  rw [← hmessage]
  exact ⟨run_parse_of_refusal program hparse houtput hsource hd',
    run_render_of_refusal program hrender hrender' hjson hsource hd',
    run_trace_of_refusal program htrace htrace' hjson hsource hd'⟩

/-- A comment, and a line that lacks a number. -/
def lineShort : Text := ascii "# base\ndraw line 1 2 3"

/-- That program is refused by all three subcommands, at its last number. -/
theorem refused_alike_short_of_a_number :
    let t : FileTree := ⟨[([ascii "a.draw"], lineShort)]⟩
    let message := ascii
      "Parse error at line 2, column 14: draw line requires 4 numbers: x1 y1 x2 y2"
    let ran (subcommand : String) (arguments : List Argument) : Ending × FileTree :=
      run (m := StateM FileTree) (.ofText (ascii "sketch"))
        (.ofText (ascii subcommand) :: .ofText (ascii "a.draw") :: arguments) t
    ran "parse" [.ofText (ascii "-o"), .ofText (ascii "a.json")] =
        (.exited ⟨1, [], line message⟩, t) ∧
      ran "render" [] =
        (.exited ⟨1, line (errorLine message), line (errorLine message)⟩, t) ∧
      ran "trace" [.ofText (ascii "-v")] = (.exited ⟨1, [], line (errorLine message)⟩, t) := by
  intro t message ran
  let d : Diagnostic := .grammatical ⟨.numberExpected .drawLine, ⟨2, 14⟩⟩
  have hmessage : d.message = message := by decide +kernel
  have hread : t.read (ascii "a.draw") = .content lineShort := by rfl
  have hparse : Names [.ofText (ascii "a.draw"), .ofText (ascii "-o"), .ofText (ascii "a.json")]
      { input := ascii "a.draw", output := ascii "a.json" } (ascii "a.draw") := ⟨by rfl, by rfl⟩
  have hrender : Names [.ofText (ascii "a.draw")]
      { input := ascii "a.draw" } (ascii "a.draw") := ⟨by rfl, by rfl⟩
  have htrace : Names [.ofText (ascii "a.draw"), .ofText (ascii "-v")]
      { input := ascii "a.draw", verbose := true } (ascii "a.draw") := ⟨by rfl, by rfl⟩
  obtain ⟨-, -, hrefused⟩ := subcommands_refuse_alike (.ofText (ascii "sketch")) hread (by decide)
    hparse (by decide) hrender rfl htrace rfl d
  rw [hmessage] at hrefused
  refine hrefused ⟨[], ?_⟩
  rw [run_parse_of_refusal _ hparse (by decide) hread (d := d) (by decide +kernel), hmessage]

end CommandLine

end Sketch
