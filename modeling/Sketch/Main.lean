import Sketch.CommandLine.Run

/-!
# The program

The command line over the real files, standard output and standard error.
-/

namespace Sketch

/-- The text `t` as a byte array, for the operating system. -/
def Text.toByteArray (t : Text) : ByteArray := ⟨t.toArray⟩

/-- The `path` as the operating system takes it, if its bytes are a string. -/
def Path.toString? (path : Text) : Option String := String.fromUTF8? (Text.toByteArray path)

/-- Read a `path` of the file system. A path that is no string cannot be opened. -/
def readPath (path : Text) : IO Reading := do
  match Path.toString? path with
  | none => pure .absent
  | some name =>
    try
      let content ← IO.FS.readBinFile name
      pure (.content content.toList)
    catch
      | .inappropriateType .. => pure .directory
      | _ => pure .absent

/-- Write a file of the file system with the given `content`, and tell whether that was possible. -/
def writePath (path content : Text) : IO Bool := do
  match Path.toString? path with
  | none => pure false
  | some name =>
    try
      IO.FS.writeBinFile name (Text.toByteArray content)
      pure true
    catch _ => pure false

instance : Files IO where
  read := readPath
  write := writePath

/-- The wording of a feature that a run lacks. -/
def Feature.message : Feature → Text
  | canvasFile => ascii "Canvas files are not supported"
  | commandsFile => ascii "Command files are not supported"
  | commandsOutput => ascii "Writing commands is not supported"
  | traceOutput => ascii "Writing traces is not supported"

end Sketch

open Sketch in
/-- Run the program with the arguments of the command line. -/
def main (arguments : List String) : IO UInt32 := do
  let arguments := arguments.map fun a => Argument.ofText a.toUTF8.toList
  match ← (CommandLine.run (.ofText (ascii "drawscript")) arguments : IO Ending) with
  | .exited exit =>
    (← IO.getStdout).write (Text.toByteArray exit.stdout)
    (← IO.getStderr).write (Text.toByteArray exit.stderr)
    pure exit.code.toUInt32
  | .lacking feature =>
    let message := CommandLine.line (CommandLine.errorLine feature.message)
    (← IO.getStderr).write (Text.toByteArray message)
    pure 1
