import Sketch.Text

/-!
# Kinds of output

The two kinds of data files and the names that mark them.
-/

namespace Sketch

/-- What a data file holds. -/
inductive OutputKind where
  /-- The commands of a program. -/
  | commands
  /-- The calls that a program made on its surface. -/
  | trace
deriving DecidableEq

namespace OutputKind

/-- The name of a kind. -/
def name : OutputKind → Text
  | commands => ascii "commands"
  | trace => ascii "trace"

/-- The kind whose `name` is `text`, or why there is none: the wording ends before the first zero
byte. -/
def ofName (text : Text) : Except Text OutputKind :=
  match [commands, trace].find? fun kind => kind.name == text with
  | some kind => .ok kind
  | none => .error (Text.beforeNul (ascii "Unknown drawscript output kind: " ++ text))

end OutputKind

end Sketch
