import Sketch.Binary64.Numeral
import Sketch.Position

/-!
# Commands

A program is a list of commands. A command is an action together with the place of the statement
that asked for it.
-/

namespace Sketch

/-- What a command does. -/
inductive Action where
  /-- Draw a line between two points. -/
  | drawLine (x1 y1 x2 y2 : Binary64)
  /-- Draw a circle around a center. -/
  | drawCircle (x y radius : Binary64)
  /-- Draw a rectangle from a corner. -/
  | drawRectangle (x y width height : Binary64)
  /-- Draw in another color from now on. -/
  | setColor (name : Text)
  /-- Wipe the canvas. -/
  | clear
  /-- Take the pen to a point. -/
  | move (x y : Binary64)
  /-- Lift the pen. -/
  | penUp
  /-- Lower the pen. -/
  | penDown
deriving DecidableEq

namespace Action

/-- The words that a statement of this action starts with, and the description of a command
likewise. -/
def name : Action → Text
  | drawLine .. => ascii "draw line"
  | drawCircle .. => ascii "draw circle"
  | drawRectangle .. => ascii "draw rectangle"
  | setColor _ => ascii "set color"
  | clear => ascii "clear"
  | move .. => ascii "move"
  | penUp => ascii "pen up"
  | penDown => ascii "pen down"

/-- The numbers of an action, in the order of its statement. -/
def numbers : Action → List Binary64
  | drawLine x1 y1 x2 y2 => [x1, y1, x2, y2]
  | drawCircle x y radius => [x, y, radius]
  | drawRectangle x y width height => [x, y, width, height]
  | move x y => [x, y]
  | setColor _ | clear | penUp | penDown => []

/-- The operands of an action as a description gives them, each after a blank: the name of a color
in quotes and as it is, or the `numbers` as `Binary64.text` prints them. -/
def operandText : Action → Text
  | setColor name => ascii " \"" ++ name ++ ascii "\""
  | action => action.numbers.flatMap fun x => ascii " " ++ x.text

/-- Two actions are equal when they are of one kind and their numbers are `Binary64.equal`, or their
names the same bytes. -/
def equal : Action → Action → Bool
  | drawLine x1 y1 x2 y2, drawLine x1' y1' x2' y2' =>
    x1.equal x1' && y1.equal y1' && x2.equal x2' && y2.equal y2'
  | drawCircle x y radius, drawCircle x' y' radius' =>
    x.equal x' && y.equal y' && radius.equal radius'
  | drawRectangle x y width height, drawRectangle x' y' width' height' =>
    x.equal x' && y.equal y' && width.equal width' && height.equal height'
  | setColor name, setColor name' => name == name'
  | move x y, move x' y' => x.equal x' && y.equal y'
  | clear, clear | penUp, penUp | penDown, penDown => true
  | _, _ => false

end Action

/-- An action and the place of its statement. -/
structure Command where
  action : Action
  position : Position
deriving DecidableEq

namespace Command

/-- The command `c` in words: the name of its action, its operands, and its place in brackets. -/
def describe (c : Command) : Text :=
  c.action.name ++ c.action.operandText ++ ascii " (" ++ c.position.text ++ ascii ")"

/-- Two commands `a` and `b` are equal when their actions are, by `Action.equal`, and they stand at
the same place. -/
def equal (a b : Command) : Bool := a.action.equal b.action && a.position == b.position

end Command

end Sketch
