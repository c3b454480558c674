import Sketch.Canvas
import Sketch.Command
import Sketch.Surface

/-!
# The pen

A pen has a place, may be down or up, and draws in a color. `Pen.obey` says what a command does:
which call it makes on the surface, where the pen is afterwards, and what it reports. It says
nothing if a coordinate of the command falls on no pixel, and then nothing happens at all.
-/

namespace Sketch

/-- A pen over a canvas. -/
structure Pen where
  /-- The place of the pen from the left. -/
  x : Binary64
  /-- The place of the pen from the top. -/
  y : Binary64
  /-- The pen touches the canvas. -/
  isDown : Bool
  /-- Shapes are filled with the color of the pen. -/
  fills : Bool
  /-- The color of the pen. -/
  color : Color
  /-- The width of its strokes in pixels. -/
  strokeWidth : Int32
deriving DecidableEq

/-- What a command that was carried out reports. -/
inductive Outcome where
  | drewLine (x1 y1 x2 y2 : Pixel)
  | drewCircle (x y radius : Pixel)
  | drewRectangle (x y width height : Pixel)
  | colorSet (name : Text)
  | cleared
  | moved (x y : Pixel)
  | lifted
  | lowered
deriving DecidableEq

/-- The pixel coordinates `x` and `y` as a point, in brackets with a comma between them. -/
def Outcome.point (x y : Pixel) : Text :=
  ascii "(" ++ Text.ofInt x.toInt ++ ascii ", " ++ Text.ofInt y.toInt ++ ascii ")"

/-- The wording of an outcome, with the pixels that its command was carried out with. -/
def Outcome.text : Outcome → Text
  | drewLine x1 y1 x2 y2 => ascii "Drew line from " ++ point x1 y1 ++ ascii " to " ++ point x2 y2
  | drewCircle x y radius =>
    ascii "Drew circle at " ++ point x y ++ ascii " with radius " ++ Text.ofInt radius.toInt
  | drewRectangle x y width height =>
    ascii "Drew rectangle at " ++ point x y ++ ascii " with size " ++ Text.ofInt width.toInt ++
      ascii "x" ++ Text.ofInt height.toInt
  | colorSet name => ascii "Color set to " ++ name
  | cleared => ascii "Canvas cleared"
  | moved x y => ascii "Pen moved to " ++ point x y
  | lifted => ascii "Pen lifted"
  | lowered => ascii "Pen lowered"

/-- Why a command was not carried out. -/
inductive Fault where
  /-- A coordinate falls on no pixel. -/
  | outOfRange (coordinate : Binary64)
  /-- The surface refuses the call. -/
  | refused (message : Text)
deriving DecidableEq

/-- The wording of a fault, which ends before the first zero byte. A number in it is printed by
`Binary64.text`. -/
def Fault.message : Fault → Text
  | outOfRange coordinate => ascii "Coordinate out of range: " ++ coordinate.text
  | refused message => Text.beforeNul message

/-- What a command does. -/
structure Effect where
  /-- The call on the surface, if there is one. -/
  call : Option Call
  /-- The pen afterwards. -/
  pen : Pen
  /-- What is reported. -/
  outcome : Outcome
deriving DecidableEq

/-- The pixel of a `coordinate`, or the fault that it has none (`Binary64.pixel?`). -/
def pixelOf (coordinate : Binary64) : Except Fault Pixel :=
  match coordinate.pixel? with
  | some p => .ok p
  | none => .error (.outOfRange coordinate)

namespace Pen

/-- A fresh pen in the middle of a canvas of the given `width` and `height`. It is down, black and
does not fill. -/
def start (width height strokeWidth : Int32) : Pen where
  x := .ofInt (width / 2).toInt
  y := .ofInt (height / 2).toInt
  isDown := true
  fills := false
  color := .black
  strokeWidth := strokeWidth

/-- The color inside the shapes that the pen `p` draws: its own `color`, if it `fills` them. -/
def fill (p : Pen) : Option Color := if p.fills then some p.color else none

/-- The pen after drawing up to the point `(x, y)`: it goes there only if it is down. -/
def follow (p : Pen) (x y : Binary64) : Pen := if p.isDown then { p with x := x, y := y } else p

/-- Draw a line from `(x1, y1)` to `(x2, y2)`, also with the pen up. The pen follows to the second
point. -/
def drawLine (p : Pen) (x1 y1 x2 y2 : Binary64) : Except Fault Effect := do
  let box : Box := ⟨← pixelOf x1, ← pixelOf y1, ← pixelOf x2, ← pixelOf y2⟩
  .ok ⟨some (.line box p.color p.strokeWidth), p.follow x2 y2,
    .drewLine box.x1 box.y1 box.x2 box.y2⟩

/-- Draw a circle as the ellipse in the box around it, which is rounded before its pixels are taken.
The pen follows to the center. -/
def drawCircle (p : Pen) (x y radius : Binary64) : Except Fault Effect := do
  let box : Box :=
    ⟨← pixelOf (x.sub radius), ← pixelOf (y.sub radius), ← pixelOf (x.add radius),
      ← pixelOf (y.add radius)⟩
  let cx ← pixelOf x
  let cy ← pixelOf y
  let r ← pixelOf radius
  .ok ⟨some (.ellipse box p.color p.fill p.strokeWidth), p.follow x y, .drewCircle cx cy r⟩

/-- Draw a rectangle with the corner `(x, y)`. The pen follows to the opposite corner. -/
def drawRectangle (p : Pen) (x y width height : Binary64) : Except Fault Effect := do
  let right := x.add width
  let bottom := y.add height
  let box : Box := ⟨← pixelOf x, ← pixelOf y, ← pixelOf right, ← pixelOf bottom⟩
  let w ← pixelOf width
  let h ← pixelOf height
  .ok ⟨some (.rectangle box p.color p.fill p.strokeWidth), p.follow right bottom,
    .drewRectangle box.x1 box.y1 w h⟩

/-- Take the pen to the point `(x, y)`, drawing a line if it is down. -/
def move (p : Pen) (x y : Binary64) : Except Fault Effect := do
  let px ← pixelOf x
  let py ← pixelOf y
  let moved := { p with x := x, y := y }
  if p.isDown then do
    let box : Box := ⟨← pixelOf p.x, ← pixelOf p.y, px, py⟩
    .ok ⟨some (.line box p.color p.strokeWidth), moved, .moved px py⟩
  else .ok ⟨none, moved, .moved px py⟩

/-- What an action does with the pen `p`: its effect, or the fault that keeps it from having one. -/
def obey (p : Pen) : Action → Except Fault Effect
  | .drawLine x1 y1 x2 y2 => p.drawLine x1 y1 x2 y2
  | .drawCircle x y radius => p.drawCircle x y radius
  | .drawRectangle x y width height => p.drawRectangle x y width height
  | .setColor name => .ok ⟨none, { p with color := .ofName name }, .colorSet name⟩
  | .clear => .ok ⟨some .clear, p, .cleared⟩
  | .move x y => p.move x y
  | .penUp => .ok ⟨none, { p with isDown := false }, .lifted⟩
  | .penDown => .ok ⟨none, { p with isDown := true }, .lowered⟩

end Pen

end Sketch
