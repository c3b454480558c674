import Sketch.Color
import Sketch.Pixel

/-!
# Drawing surfaces

A drawing is made by calls on a surface. A surface has a size, and it either takes a call and
becomes another surface or refuses it with a message and stays as it is.
-/

namespace Sketch

/-- What a surface is asked to do. -/
inductive Call where
  /-- Draw the line between the corners of the box. -/
  | line (box : Box) (stroke : Color) (strokeWidth : Int32)
  /-- Draw the ellipse that fits the box. -/
  | ellipse (box : Box) (outline : Color) (fill : Option Color) (strokeWidth : Int32)
  /-- Draw the rectangle on the box. -/
  | rectangle (box : Box) (outline : Color) (fill : Option Color) (strokeWidth : Int32)
  /-- Drop all that was drawn. -/
  | clear
deriving DecidableEq

/-- The four kinds of calls. -/
inductive CallKind where
  | line
  | ellipse
  | rectangle
  | clear
deriving DecidableEq

namespace CallKind

/-- The name of the kind. -/
def name : CallKind → Text
  | line => ascii "draw_line"
  | ellipse => ascii "draw_ellipse"
  | rectangle => ascii "draw_rectangle"
  | clear => ascii "clear_all"

/-- All kinds of calls, each of them once. -/
def all : List CallKind := [line, ellipse, rectangle, clear]

/-- The kind whose `CallKind.name` is `name`, and nothing for any other text. -/
def ofName? (name : Text) : Option CallKind := all.find? fun kind => kind.name == name

end CallKind

namespace Call

/-- The kind of a call, without what it draws. -/
def kind : Call → CallKind
  | line .. => .line
  | ellipse .. => .ellipse
  | rectangle .. => .rectangle
  | clear => .clear

/-- The box of a call. Wiping the surface, `clear`, has none. -/
def box? : Call → Option Box
  | line box .. | ellipse box .. | rectangle box .. => some box
  | clear => none

end Call

/-- Something to draw on. -/
class Surface (σ : Type) where
  /-- The width in pixels. -/
  width : σ → Int32
  /-- The height in pixels. -/
  height : σ → Int32
  /-- The surface after a call, or the message of its refusal. -/
  draw : σ → Call → Except Text σ

end Sketch
