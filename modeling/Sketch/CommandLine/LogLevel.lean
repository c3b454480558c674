import Sketch.Text

/-!
# Log levels

The least severity of the log lines that are shown, as the environment may choose it.
-/

namespace Sketch

/-- A severity of log lines, or none at all. -/
inductive LogLevel where
  | trace
  | debug
  | info
  | warn
  | error
  | off
deriving DecidableEq

namespace LogLevel

/-- The name of a level. -/
def name : LogLevel → Text
  | trace => ascii "trace"
  | debug => ascii "debug"
  | info => ascii "info"
  | warn => ascii "warn"
  | error => ascii "error"
  | off => ascii "off"

/-- All levels, from the most talkative on. -/
def all : List LogLevel := [trace, debug, info, warn, error, off]

/-- The level whose `name` is `text`; any other text chooses `info`. -/
def ofName (text : Text) : LogLevel := (all.find? fun level => level.name == text).getD info

end LogLevel

end Sketch
