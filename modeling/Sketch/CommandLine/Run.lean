import Sketch.CommandLine.Files
import Sketch.CommandLine.Options
import Sketch.Session
import Sketch.Surface.Recording
import Sketch.Surface.Svg

/-!
# The command line

The subcommands read a program and check it (`parse`), draw it (`render`) or record its drawing
calls (`trace`). Everything they do to files goes through `Files`, so that a run over a `FileTree`
is a function. Data files are not part of this library: a run that would have to read or write one
says so by `Feature` and has done nothing else.
-/

namespace Sketch

/-- How a run of the program ends. -/
structure Exit where
  /-- The exit code. -/
  code : UInt8
  /-- What is written to standard output. -/
  stdout : Text
  /-- What is written to standard error. -/
  stderr : Text
deriving DecidableEq

/-- What needs a data file. -/
inductive Feature where
  /-- Canvas settings from a file. -/
  | canvasFile
  /-- Commands from a file. -/
  | commandsFile
  /-- Writing the commands of a program. -/
  | commandsOutput
  /-- Writing the drawing calls of a program. -/
  | traceOutput
deriving DecidableEq

/-- The end of a run. -/
inductive Ending where
  /-- The run ended by itself. -/
  | exited (exit : Exit)
  /-- The run needs a feature that it lacks. -/
  | lacking (feature : Feature)
deriving DecidableEq

namespace CommandLine

/-- The text `t` with a line feed after it. -/
def line (t : Text) : Text := t ++ [Byte.newline]

/-- Each of the texts `ts` on a line of its own. -/
def lines (ts : List Text) : Text := ts.flatMap line

/-- A run that ends with the exit code 1 and with a `message` on standard error, after `stdout` was
printed. -/
def fail (stdout message : Text) : Ending := .exited ⟨1, stdout, line message⟩

/-- The message that an error ends a run with, with its `reason` behind the word. -/
def errorLine (reason : Text) : Text := ascii "Error: " ++ reason

/-- The reason for a `path` that cannot be opened, be it of a program or of a data file. -/
def cannotOpen (path : Text) : Text := ascii "Cannot open file: " ++ path

/-- The reason for a `path` that cannot be written. -/
def cannotWrite (path : Text) : Text := ascii "Cannot write to file: " ++ path

/-- The reason for a path that can be opened but not read. -/
def cannotRead : Text :=
  ascii "basic_filebuf::underflow error reading the file: Is a directory"

/-- The help of the program itself, which is printed under the name `program`. -/
def usage (program : Text) : Text :=
  lines (
    (ascii "Usage: " ++ program ++ ascii " <command> [options] <input>") ::
    [ "",
      "Runs drawing programs written in the drawscript language.",
      "",
      "Commands:",
      "  parse <input.draw> -o <commands.json>   Parse a program into a command list",
      "  render <input> [-o <output.svg>]        Execute a program and write an SVG",
      "  trace <input> [-o <calls.json>]         Execute a program and record drawing calls",
      "  help                                    Show this help message",
      "",
      "Options:",
      "  -o, --output <path>   Output file",
      "  -c, --config <path>   Canvas config JSON (width, height, stroke_width, background)",
      "  -v, --verbose         Debug logging",
      "",
      "render and trace accept program source or a commands.json written by parse.",
      "",
      "Environment:",
      "  DRAWSCRIPT_LOG_LEVEL - Set log level (trace, debug, info, warn, error, off)"
    ].map ascii)

variable {m : Type → Type} [Monad m] [Files m]

/-- Go on with the text of the program at `path` by `next`, or end the run if it cannot be read. -/
def withProgram (path : Text) (next : Text → m Ending) : m Ending := do
  match ← Files.read path with
  | .absent => pure (fail [] (errorLine (cannotOpen path)))
  | .directory => pure (fail [] (errorLine cannotRead))
  | .content source => next source

/-- Go on by `next` if no data file is asked for. A `path` that cannot be opened ends the run, and
any other lacks the `feature`. -/
def withoutData (path : Option Text) (feature : Feature) (next : m Ending) : m Ending :=
  match path with
  | none => next
  | some path => do
    match ← Files.read path with
    | .absent => pure (fail [] (errorLine (cannotOpen path)))
    | _ => pure (.lacking feature)

/-- The input path of the options `o` if it names a stored list of commands. -/
def commandsPath (o : Options) : Option Text :=
  if Path.isCommandsFile o.input then some o.input else none

/-- Read the program that the options `o` name and check it. Both an input and an output have to be
given. -/
def parse (o : Options) : m Ending :=
  if o.input.isEmpty ∨ o.output.isEmpty then
    pure (fail [] (ascii "Usage: drawscript parse <input.draw> -o <output.commands.json>"))
  else
    withProgram o.input fun source =>
      match Program.ofSource source with
      | .error diagnostic => pure (fail [] diagnostic.message)
      | .ok _ => pure (.lacking .commandsOutput)

/-- The end of a run that drew a program: the `picture` is written to the output path of `o`, unless
the `report` is of a program that was refused. -/
def finishPicture (o : Options) (report : Report) (picture : SvgPicture) : m Ending := do
  let stdout := lines report.messages
  match report.error? with
  | some message => pure (fail stdout (errorLine message))
  | none =>
    let path := o.outputPath (ascii ".svg")
    if ← Files.write path picture.document then
      let count := Text.ofNat picture.elements.length
      pure (.exited ⟨0, stdout,
        line (ascii "Wrote " ++ path ++ ascii " (" ++ count ++ ascii " elements)")⟩)
    else pure (fail stdout (errorLine (cannotWrite path)))

/-- Draw the program that the options `o` name and write the picture. -/
def render (o : Options) : m Ending :=
  if o.input.isEmpty then
    pure (fail [] (ascii
      "Usage: drawscript render <input.draw|commands.json> [-o <output.svg>] [-c <canvas.json>]"))
  else
    withoutData o.config .canvasFile <|
      match SvgPicture.ofConfig {} with
      | .error problem => pure (fail [] (errorLine problem.message))
      | .ok picture =>
        withoutData (commandsPath o) .commandsFile <| withProgram o.input fun source =>
          let (report, session) := (Session.start picture {}).run source
          finishPicture o report session.surface

/-- Record the drawing calls of the program that the options `o` name. -/
def trace (o : Options) : m Ending :=
  if o.input.isEmpty then
    pure (fail [] (ascii
      "Usage: drawscript trace <input.draw|commands.json> [-o <calls.json>] [-c <canvas.json>]"))
  else
    withoutData o.config .canvasFile <|
      match Recording.ofConfig {} with
      | .error problem => pure (fail [] (errorLine problem.message))
      | .ok recording =>
        withoutData (commandsPath o) .commandsFile <| withProgram o.input fun source =>
          match ((Session.start recording {}).run source).1.error? with
          | some message => pure (fail [] (errorLine message))
          | none => pure (.lacking .traceOutput)

/-- Run a `subcommand` with the options that its `arguments` give, or end the run with what is wrong
with them. -/
def withOptions (arguments : List Argument) (subcommand : Options → m Ending) : m Ending :=
  match Options.ofArguments arguments with
  | .error problem => pure (fail [] (errorLine problem.message))
  | .ok o => subcommand o

/-- Run the program under the given name with the given arguments, of which the first is the name of
a subcommand. -/
def run (program : Argument) : List Argument → m Ending
  | [] => pure (.exited ⟨1, [], usage program.text⟩)
  | ⟨command, _⟩ :: arguments =>
    if command = ascii "parse" then withOptions arguments parse
    else if command = ascii "render" then withOptions arguments render
    else if command = ascii "trace" then withOptions arguments trace
    else if command = ascii "help" ∨ command = ascii "--help" ∨ command = ascii "-h" then
      pure (.exited ⟨0, [], usage program.text⟩)
    else
      pure (.exited
        ⟨1, [], line (ascii "Unknown command: " ++ command) ++ line [] ++ usage program.text⟩)

end CommandLine

end Sketch
