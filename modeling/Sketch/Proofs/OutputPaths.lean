import Sketch.CommandLine.DataFiles
import Sketch.Proofs.Extensions
import Sketch.Proofs.Render

/-!
# Pictures beside their programs

If no output is asked for, a picture is written to the input path with the extension `.svg`.
`CommandLine.input_kept_unless_svg` shows what this does to the input: it is kept, whatever else the
run does, unless the input has that extension already. In that case a picture that is written
replaces the input (`CommandLine.picture_replaces_input`).

The proof has two halves. A run fails and changes nothing, or it writes one file, to the output path
(`CommandLine.Finishes`). This holds with whatever is found in data files, so the steps of the run
are gone through once, for any `DataReader`. The other half is about paths alone: one with another
extension leads to another file (`FileTree.resolve_eq_iff_of_divides`).

A run that needs no data file is the same with every reader of such files
(`CommandLine.renderReading_of_exited`).
-/

namespace Sketch.CommandLine

variable {t : FileTree} {o : Options} {d : DataReader} {r : Ending × FileTree} {α : Type}

/-! ## One file or none -/

/-- The run fails, or it writes a picture to the given path and nothing else. -/
inductive Finishes (t : FileTree) (path : Text) : Ending × FileTree → Prop where
  | fails {r : Ending × FileTree} : Fails t r → Finishes t path r
  | writes (report : Report) (picture : SvgPicture) {t' : FileTree} :
      t.IsWritable path → t.Wrote path picture.document t' →
      Finishes t path (wrote report path picture, t')

/-- A data file is opened and searched by `find`, which changes nothing, and `next` goes on with
what is found. -/
theorem withData_apply (path : Text) (find : Text → Reading → Except Text α)
    (next : α → StateM FileTree Ending) :
    withData path find next t =
      if t.read path = .absent then (fail [] (errorLine (cannotOpen path)), t)
      else
        match find path (t.read path) with
        | .error reason => (fail [] (errorLine reason), t)
        | .ok found => next found t := by
  rw [withData, read_bind_apply]
  cases t.read path with
  | absent => rfl
  | directory =>
    -- What is not absent goes to the reader of the data, a directory too.
    rw [if_neg (by decide)]
    dsimp only
    cases find path .directory <;> rfl
  | content source =>
    rw [if_neg Reading.noConfusion]
    dsimp only
    cases find path (.content source) <;> rfl

/-- A run that goes on from a data file finishes if `next` does, whatever is `found` in it. -/
theorem finishes_withData {path output : Text} {find : Text → Reading → Except Text α}
    {next : α → StateM FileTree Ending} (h : ∀ found, Finishes t output (next found t)) :
    Finishes t output (withData path find next t) := by
  rw [withData_apply]
  split
  · exact .fails (fails_fail _ _)
  · split
    · exact .fails (fails_fail _ _)
    · exact h _

/-- A run that goes on from a program finishes if `next` does, whatever the `source` is. -/
theorem finishes_withProgram {path output : Text} {next : Text → StateM FileTree Ending}
    (h : ∀ source, Finishes t output (next source t)) :
    Finishes t output (withProgram path next t) := by
  rw [withProgram_apply]
  split
  · exact .fails (fails_fail _ _)
  · exact .fails (fails_fail _ _)
  · exact h _

/-- A run that has `drawn` a picture finishes at the output path of its options `o`. -/
theorem finishes_finishDrawing (drawn : Report × Session SvgPicture) :
    Finishes t (o.outputPath (ascii ".svg")) (finishDrawing (m := StateM FileTree) o drawn t) := by
  rw [finishDrawing, finishPicture_apply]
  dsimp only
  split
  · exact .fails (fails_fail _ _)
  · split
    · exact .fails (fails_fail _ _)
    case _ t' hwrite =>
      exact .writes _ _ (FileTree.exists_write?_iff.mp ⟨t', hwrite⟩)
        (FileTree.wrote_of_write? hwrite)

/-- A run of `render` with the settings `c` finishes at the output path of its options `o`. -/
theorem finishes_renderWith (c : CanvasConfig) :
    Finishes t (o.outputPath (ascii ".svg")) (renderWith (m := StateM FileTree) d o c t) := by
  rw [renderWith]
  cases SvgPicture.ofConfig c with
  | error problem => exact .fails (fails_fail _ _)
  | ok picture =>
    dsimp only
    split
    · exact finishes_withData fun _ => finishes_finishDrawing _
    · exact finishes_withProgram fun _ => finishes_finishDrawing _

/-- Whatever the reader `d` finds in data files, a run of `render` finishes: at most the output is
written. -/
theorem finishes_renderReading :
    Finishes t (o.outputPath (ascii ".svg")) (renderReading (m := StateM FileTree) d o t) := by
  rw [renderReading]
  split
  case isTrue hempty =>
    rw [render, if_pos hempty]
    exact .fails (fails_fail _ _)
  case isFalse =>
    cases o.config with
    | none => exact finishes_renderWith {}
    | some path => exact finishes_withData finishes_renderWith

/-! ## Runs without data files -/

/-- A run that asks for no data file goes on with `next`, whatever the `feature` is that would need
one. -/
theorem withoutData_none (feature : Feature) (next : StateM FileTree Ending) :
    withoutData none feature next = next :=
  rfl

/-- A data file that ends a run which lacks its `feature` cannot be opened, and so ends every run in
the same way. -/
theorem withData_of_exited {path : Text} {feature : Feature} {exit : Exit}
    {lacking : StateM FileTree Ending} (find : Text → Reading → Except Text α)
    (next : α → StateM FileTree Ending)
    (h : (withoutData (some path) feature lacking t).1 = .exited exit) :
    withData path find next t = withoutData (some path) feature lacking t := by
  have hlacking : withoutData (some path) feature lacking t =
      if t.read path = .absent then (fail [] (errorLine (cannotOpen path)), t)
      else (.lacking feature, t) := by
    rw [withoutData, read_bind_apply]
    cases t.read path <;> rfl
  rw [hlacking] at h ⊢
  rw [withData_apply]
  split at h
  case isTrue habsent => rw [if_pos habsent, if_pos habsent]
  case isFalse => cases h

/-- A run that ends by itself without a reader of data files ends so with the reader `d`. -/
theorem renderReading_of_exited {exit : Exit} (d : DataReader)
    (h : (render (m := StateM FileTree) o t).1 = .exited exit) :
    renderReading (m := StateM FileTree) d o t = render (m := StateM FileTree) o t := by
  rw [renderReading]
  -- Settings are read first and stored commands second, and only if they are asked for.
  split
  case isTrue => rfl
  case isFalse hinput =>
    rw [render, if_neg hinput] at h ⊢
    cases hconfig : o.config with
    | some path =>
      rw [hconfig] at h
      exact withData_of_exited d.settings (renderWith d o) h
    | none =>
      rw [hconfig, withoutData_none] at h
      rw [withSettings, withoutData_none, renderWith]
      cases hpicture : SvgPicture.ofConfig {} with
      | error problem => rfl
      | ok picture =>
        rw [hpicture] at h
        dsimp only at h ⊢
        split
        case isTrue hcommands =>
          rw [commandsPath, if_pos hcommands] at h ⊢
          exact withData_of_exited d.commands _ h
        case isFalse hcommands =>
          rw [commandsPath, if_neg hcommands]
          rfl

/-! ## The input -/

/-- If no output is asked for (`houtput`), the picture is written to the input path with the
extension `.svg` in place of `ext`. -/
theorem outputPath_of_divides {dir stem ext : Text} (houtput : o.output = [])
    (h : Path.Divides o.input dir stem ext) :
    o.outputPath (ascii ".svg") = dir ++ stem ++ ascii ".svg" := by
  obtain ⟨rfl, hsplit⟩ := Path.divides_iff.mp h
  rw [Options.outputPath, houtput, Path.withExtension, ← hsplit]
  rfl

/-- The run fails and changes no file, or it writes a picture to the path that is derived from the
input path in three parts, which replaces the input exactly if its extension is `.svg`. -/
theorem finishes_derived {input dir stem ext : Text} (hdivides : Path.Divides input dir stem ext)
    (h : Finishes t (dir ++ stem ++ ascii ".svg") r) :
    let path := dir ++ stem ++ ascii ".svg"
    Fails t r ∨ ∃ report picture, r.1 = wrote report path picture ∧
      t.Wrote path picture.document r.2 ∧
      (t.resolve path = t.resolve input ↔ ext = ascii ".svg") ∧
      r.2.read input = if ext = ascii ".svg" then .content picture.document else t.read input := by
  intro path
  cases h with
  | fails hfails => exact .inl hfails
  | writes report picture hwritable hwrote =>
    have hsame := FileTree.resolve_eq_iff_of_divides hdivides (by decide) hwritable
    refine .inr ⟨report, picture, rfl, hwrote, hsame, ?_⟩
    simp only [hwrote.read, eq_comm.trans hsame]

/-- Rendering with the output path derived keeps the input unless its extension is `.svg`. Whatever
is found in data files, the run fails and changes no file, or it writes a picture to the input path
with the extension of the last component replaced by `.svg`, and no other file. That path leads to
the input exactly if its extension is `.svg`, and then the input reads as the picture. A run that
needs no data file is that of the program, and arguments that make no sense end it before it reads
or writes anything. -/
theorem input_kept_unless_svg (program : Argument) (arguments : List Argument) (d : DataReader)
    (t : FileTree) :
    let ran : Ending × FileTree :=
      run (m := StateM FileTree) program (.ofText (ascii "render") :: arguments) t
    let r : Ending × FileTree := withOptions (m := StateM FileTree) arguments (renderReading d) t
    (∀ exit, ran.1 = .exited exit → r = ran) ∧
    (∀ problem, Options.ofArguments arguments = .error problem → Fails t r) ∧
    ∀ o dir stem ext, Options.ofArguments arguments = .ok o → o.output = [] →
      Path.Divides o.input dir stem ext →
      let path := dir ++ stem ++ ascii ".svg"
      (Fails t r ∨ ∃ report picture, r.1 = wrote report path picture ∧
        t.Wrote path picture.document r.2 ∧
        (t.resolve path = t.resolve o.input ↔ ext = ascii ".svg") ∧
        r.2.read o.input =
          if ext = ascii ".svg" then .content picture.document else t.read o.input) ∧
      (ext ≠ ascii ".svg" → r.2.read o.input = t.read o.input) := by
  intro ran r
  have hran : ran = withOptions (m := StateM FileTree) arguments render t := rfl
  refine ⟨fun exit hexit => ?_, fun problem hproblem => ?_, ?_⟩
  · rw [hran] at hexit ⊢
    unfold r
    unfold withOptions at hexit ⊢
    -- A run that has exited has asked for no data that is lacking, so the reader makes no
    -- difference to it.
    cases hoptions : Options.ofArguments arguments with
    | error problem => rfl
    | ok o =>
      rw [hoptions] at hexit
      exact renderReading_of_exited d hexit
  · unfold r
    rw [withOptions, hproblem]
    exact fails_fail _ _
  · intro o dir stem ext hoptions houtput hdivides path
    have hr : r = renderReading (m := StateM FileTree) d o t := by
      unfold r
      rw [withOptions, hoptions]
    have hpath : o.outputPath (ascii ".svg") = path := outputPath_of_divides houtput hdivides
    -- At most the derived path is written, whatever the reader finds.
    have hfinishes : Finishes t path r := by
      rw [hr, ← hpath]
      exact finishes_renderReading
    have hderived := finishes_derived hdivides hfinishes
    refine ⟨hderived, fun hext => ?_⟩
    -- Nothing is written by a run that fails, and the input is another file if its extension is
    -- another.
    rcases hderived with hfails | ⟨report, picture, -, -, -, hread⟩
    · rw [hfails.files]
    · rw [hread, if_neg hext]

/-- A program of one command. -/
def penUp : Text := ascii "pen up"

/-- Settings of a canvas that is 900 wide. -/
def wideSettings : Text := ascii "\x7b\"width\": 900\x7d"

/-- A program without an extension, in a directory that has a point in its name, is kept by a run
without settings and by one with them. -/
theorem extensionless_input_kept :
    let t : FileTree :=
      ⟨[([ascii "v1.2", ascii "star"], penUp), ([ascii "wide"], wideSettings)]⟩
    let d : DataReader :=
      { settings _ reading :=
          if reading = .content wideSettings then .ok { width := 900 } else .error []
        commands _ _ := .error [] }
    let star := Argument.ofText (ascii "v1.2/star")
    let plain : Ending × FileTree :=
      run (m := StateM FileTree) (.ofText (ascii "sketch")) [.ofText (ascii "render"), star] t
    let wide : Ending × FileTree :=
      withOptions (m := StateM FileTree) [.ofText (ascii "-c"), .ofText (ascii "wide"), star]
        (renderReading d) t
    let ending : Ending := .exited ⟨0, lines [ascii "Parsed 1 command(s)", ascii "[1] Pen lifted"],
      line (ascii "Wrote v1.2/star.svg (0 elements)")⟩
    plain.1 = ending ∧ plain.2.read (ascii "v1.2/star") = .content penUp ∧
      wide.1 = ending ∧ wide.2.read (ascii "v1.2/star") = .content penUp := by
  intro t d star plain wide ending
  -- The dot in the name of the directory starts no extension.
  have hdivides : Path.Divides (ascii "v1.2/star") (ascii "v1.2/") (ascii "star") [] :=
    Path.divides_iff.mpr ⟨by decide, by decide⟩
  have hplain : plain.1 = ending := by decide +kernel
  obtain ⟨hsame, -, hkept⟩ := input_kept_unless_svg (.ofText (ascii "sketch")) [star] d t
  obtain ⟨-, hkept⟩ := hkept { input := ascii "v1.2/star" } _ _ _ (by rfl) rfl hdivides
  rw [hsame _ hplain] at hkept
  obtain ⟨-, -, hkept'⟩ := input_kept_unless_svg (.ofText (ascii "sketch"))
    [.ofText (ascii "-c"), .ofText (ascii "wide"), star] d t
  obtain ⟨-, hkept'⟩ := hkept' { input := ascii "v1.2/star", config := some (ascii "wide") } _ _ _
    (by rfl) rfl hdivides
  exact ⟨hplain, hkept (by decide), by decide +kernel, hkept' (by decide)⟩

/-- A program in a file whose extension is `.svg` is replaced by its picture. -/
theorem picture_replaces_input :
    let t : FileTree := ⟨[([ascii "p.svg"], penUp)]⟩
    let r : Ending × FileTree := run (m := StateM FileTree) (.ofText (ascii "drawscript"))
      [.ofText (ascii "render"), .ofText (ascii "p.svg")] t
    r.1 = .exited ⟨0, lines [ascii "Parsed 1 command(s)", ascii "[1] Pen lifted"],
        line (ascii "Wrote p.svg (0 elements)")⟩ ∧
      t.read (ascii "p.svg") = .content penUp ∧
      r.2.read (ascii "p.svg") = .content (SvgPicture.onCanvas {} []).document ∧
      r.2.read (ascii "p.svg") ≠ t.read (ascii "p.svg") := by
  decide +kernel

end Sketch.CommandLine
