import Sketch.CommandLine.Run

/-!
# Rendering with data files

`CommandLine.render` ends where it needs a data file, because how such a file is laid out is no part
of this library. What is done with its content is: `CommandLine.renderReading` draws with settings
and with stored commands as a `DataReader` finds them.
-/

namespace Sketch

/-- What is found in data files that can be opened, by their paths and what they read as, or why
they are refused. -/
structure DataReader where
  /-- The canvas settings in a file. -/
  settings : Text → Reading → Except Text CanvasConfig
  /-- The stored commands in a file. -/
  commands : Text → Reading → Except Text (List Command)

namespace CommandLine

variable {m : Type → Type} [Monad m] [Files m] {α : Type}

/-- Go on by `next` with what `find` makes of the data file at `path`, or end the run if the file
cannot be opened or is refused. -/
def withData (path : Text) (find : Text → Reading → Except Text α) (next : α → m Ending) :
    m Ending := do
  match ← Files.read path with
  | .absent => pure (fail [] (errorLine (cannotOpen path)))
  | reading =>
    match find path reading with
    | .error reason => pure (fail [] (errorLine reason))
    | .ok found => next found

/-- Go on by `next` with the settings from the file at `path`, or with the defaults if no file is
asked for. -/
def withSettings (d : DataReader) (path : Option Text) (next : CanvasConfig → m Ending) :
    m Ending :=
  match path with
  | none => next {}
  | some path => withData path d.settings next

/-- What is `drawn` is written to the output path of `o`, if the report is not of a program that was
refused. -/
def finishDrawing (o : Options) (drawn : Report × Session SvgPicture) : m Ending :=
  finishPicture o drawn.1 drawn.2.surface

/-- Draw the input of the options `o` with the settings `c`, be it a program or, as
`Path.isCommandsFile` tells, stored commands. -/
def renderWith (d : DataReader) (o : Options) (c : CanvasConfig) : m Ending :=
  match SvgPicture.ofConfig c with
  | .error problem => pure (fail [] (errorLine problem.message))
  | .ok picture =>
    if Path.isCommandsFile o.input then
      withData o.input d.commands fun commands =>
        finishDrawing o ((Session.start picture c).runCommands commands)
    else
      withProgram o.input fun source => finishDrawing o ((Session.start picture c).run source)

/-- Draw a program, or stored commands, with what `d` finds in data files, and write the picture. It
is `render` where no data file is needed. -/
def renderReading (d : DataReader) (o : Options) : m Ending :=
  if o.input.isEmpty then render o else withSettings d o.config (renderWith d o)

end CommandLine

end Sketch
