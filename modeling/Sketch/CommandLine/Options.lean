import Sketch.CommandLine.Argument
import Sketch.CommandLine.Path

/-!
# Options of a subcommand

After the name of a subcommand come options in any order and at most one input path. The value of an
option is the argument after it, whatever that looks like, and the last value given counts.
-/

namespace Sketch

/-- The options that the subcommands share. -/
structure Options where
  /-- The path of the program, or nothing. -/
  input : Text := []
  /-- The path to write to, or nothing. -/
  output : Text := []
  /-- The path of the canvas settings. -/
  config : Option Text := none
  /-- More log lines are wanted. -/
  verbose : Bool := false
deriving DecidableEq

/-- Why arguments are refused. -/
inductive OptionsProblem where
  /-- An option is the last argument but needs a value. -/
  | valueMissing (option : Text)
  /-- An argument is empty or starts with a minus sign, and names no option. -/
  | unknownOption (argument : Text)
  /-- There is a second input path. -/
  | secondInput (first second : Text)
deriving DecidableEq

/-- The wording of a problem, with the arguments that are to blame. -/
def OptionsProblem.message : OptionsProblem → Text
  | valueMissing option => option ++ ascii " needs a value"
  | unknownOption argument => ascii "Unknown option: " ++ argument
  | secondInput first second =>
    ascii "Only one input file is accepted, got " ++ first ++ ascii " and " ++ second

namespace Options

/-- The options `o` after more arguments. A value that is given twice replaces the first one, and a
second input is refused. -/
def addArguments (o : Options) : List Argument → Except OptionsProblem Options
  | [] => .ok o
  | ⟨a, _⟩ :: rest =>
    if a = ascii "-v" ∨ a = ascii "--verbose" then addArguments { o with verbose := true } rest
    else if a = ascii "-o" ∨ a = ascii "--output" then
      match rest with
      | [] => .error (.valueMissing a)
      | value :: rest => addArguments { o with output := value.text } rest
    else if a = ascii "-c" ∨ a = ascii "--config" then
      match rest with
      | [] => .error (.valueMissing a)
      | value :: rest => addArguments { o with config := some value.text } rest
    else if a.isEmpty ∨ a.head? = some Byte.minus then .error (.unknownOption a)
    else if o.input.isEmpty then addArguments { o with input := a } rest
    else .error (.secondInput o.input a)

/-- The options that the `arguments` after the name of a subcommand give, from the defaults on. -/
def ofArguments (arguments : List Argument) : Except OptionsProblem Options :=
  addArguments {} arguments

/-- The path to write to: the `output` that was given, or else the input path with `newExtension`.
-/
def outputPath (o : Options) (newExtension : Text) : Text :=
  if o.output.isEmpty then Path.withExtension o.input newExtension else o.output

end Options

end Sketch
