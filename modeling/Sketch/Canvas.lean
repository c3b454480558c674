import Sketch.Text

/-!
# Canvas settings

The settings of a drawing: the size of the canvas, the width of strokes, and the color behind
the drawing. A canvas needs a positive size and a positive stroke width.
-/

namespace Sketch

/-- The settings of a drawing. Every setting has a default. -/
structure CanvasConfig where
  /-- The width of the canvas in pixels. -/
  width : Int32 := 800
  /-- The height of the canvas in pixels. -/
  height : Int32 := 600
  /-- The width of lines and outlines in pixels. -/
  strokeWidth : Int32 := 2
  /-- The name of the color behind the drawing. -/
  background : Text := ascii "white"
deriving DecidableEq

/-- Why no canvas has some settings. -/
inductive ConfigProblem where
  /-- The width or the height is not positive. -/
  | emptyCanvas (width height : Int32)
  /-- The stroke width is not positive. -/
  | noStroke (strokeWidth : Int32)
deriving DecidableEq

/-- The wording of a problem, with the numbers that are to blame. It is what the run ends with. -/
def ConfigProblem.message : ConfigProblem → Text
  | emptyCanvas width height =>
    ascii "Canvas size must be positive, got " ++ Text.ofInt width.toInt ++ ascii "x" ++
      Text.ofInt height.toInt
  | noStroke strokeWidth =>
    ascii "Stroke width must be positive, got " ++ Text.ofInt strokeWidth.toInt

namespace CanvasConfig

/-- The problem with the settings `c`, if there is one. The size is looked at before `strokeWidth`,
and the `background` may be any text. -/
def problem? (c : CanvasConfig) : Option ConfigProblem :=
  if c.width ≤ 0 ∨ c.height ≤ 0 then some (.emptyCanvas c.width c.height)
  else if c.strokeWidth ≤ 0 then some (.noStroke c.strokeWidth)
  else none

/-- The given `value`, if the settings `c` have no `problem?`. -/
def guarded {α : Type} (c : CanvasConfig) (value : α) : Except ConfigProblem α :=
  match c.problem? with
  | some problem => .error problem
  | none => .ok value

end CanvasConfig

end Sketch
