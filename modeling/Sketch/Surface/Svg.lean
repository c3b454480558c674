import Sketch.Binary64.Numeral
import Sketch.Canvas
import Sketch.Surface

/-!
# SVG surfaces

A picture turns every call into an element of an SVG document. Boxes are given there by their
least corner and their size, and ellipses by their center and their radii. The extents of a box are
differences of pixel coordinates and wrap around as those do.
-/

namespace Sketch

/-- An element of a picture. -/
inductive SvgElement where
  /-- A line between two points. -/
  | line (x1 y1 x2 y2 : Pixel) (stroke : Color) (strokeWidth : Int32)
  /-- An ellipse by its center and radii. -/
  | ellipse (cx cy rx ry : Binary64) (outline : Color) (fill : Option Color) (strokeWidth : Int32)
  /-- A rectangle by its least corner and its size. -/
  | rect (x y width height : Pixel) (outline : Color) (fill : Option Color) (strokeWidth : Int32)
deriving DecidableEq

namespace SvgElement

/-- The distance between the pixel coordinates `a` and `b`, in 32 bits: where it does not fit, it
wraps around. -/
def extent (a b : Pixel) : Pixel := (b - a).abs

/-- The coordinate in the middle of `a` and `b`, half of their sum in 32 bits. -/
def middle (a b : Pixel) : Binary64 := .ofHalves (a + b).toInt

/-- The element that a call draws, with its box turned the right way round. Wiping the surface draws
none. -/
def ofCall? : Call → Option SvgElement
  | .line b stroke strokeWidth => some (line b.x1 b.y1 b.x2 b.y2 stroke strokeWidth)
  | .ellipse b outline fill strokeWidth =>
    some (ellipse (middle b.x1 b.x2) (middle b.y1 b.y2) (.ofHalves (extent b.x1 b.x2).toInt)
      (.ofHalves (extent b.y1 b.y2).toInt) outline fill strokeWidth)
  | .rectangle b outline fill strokeWidth =>
    some (rect (if b.x2 < b.x1 then b.x2 else b.x1) (if b.y2 < b.y1 then b.y2 else b.y1)
      (extent b.x1 b.x2) (extent b.y1 b.y2) outline fill strokeWidth)
  | .clear => none

/-- The attribute `name` of an element with its `value`, after a blank. The value is written as it
is. -/
def attr (name : String) (value : Text) : Text :=
  ascii " " ++ ascii name ++ ascii "=\"" ++ value ++ ascii "\""

/-- The pixel coordinate or width `value` as the attribute `name`. -/
def integer (name : String) (value : Int32) : Text := attr name (Text.ofInt value.toInt)

/-- The color inside a shape as the attribute `fill`, which is `none` for a shape that is empty. -/
def fillAttribute (fill : Option Color) : Text :=
  attr "fill" ((fill.map Color.hex).getD (ascii "none"))

/-- The element as it is written in a document, a tag with its attributes in a fixed order. -/
def text : SvgElement → Text
  | line x1 y1 x2 y2 stroke strokeWidth =>
    ascii "<line" ++ integer "x1" x1 ++ integer "y1" y1 ++ integer "x2" x2 ++ integer "y2" y2 ++
      attr "stroke" stroke.hex ++ integer "stroke-width" strokeWidth ++
      attr "stroke-linecap" (ascii "round") ++ ascii "/>"
  | ellipse cx cy rx ry outline fill strokeWidth =>
    ascii "<ellipse" ++ attr "cx" cx.text ++ attr "cy" cy.text ++
      attr "rx" rx.text ++ attr "ry" ry.text ++ attr "stroke" outline.hex ++
      integer "stroke-width" strokeWidth ++ fillAttribute fill ++ ascii "/>"
  | rect x y width height outline fill strokeWidth =>
    ascii "<rect" ++ integer "x" x ++ integer "y" y ++ integer "width" width ++
      integer "height" height ++ attr "stroke" outline.hex ++
      integer "stroke-width" strokeWidth ++ fillAttribute fill ++ ascii "/>"

end SvgElement

/-- A surface that draws a picture. -/
structure SvgPicture where
  /-- The width in pixels. -/
  width : Int32
  /-- The height in pixels. -/
  height : Int32
  /-- The color behind the elements. -/
  background : Color
  /-- The elements, in drawing order. -/
  elements : List SvgElement
deriving DecidableEq

namespace SvgPicture

/-- An empty picture of the size and the background in the settings `c`, if these have no problem.
-/
def ofConfig (c : CanvasConfig) : Except ConfigProblem SvgPicture :=
  c.guarded ⟨c.width, c.height, .ofName c.background, []⟩

/-- The picture after a `call`: with its element behind the others, or with no elements left. -/
def apply (p : SvgPicture) (call : Call) : SvgPicture :=
  match SvgElement.ofCall? call with
  | some element => { p with elements := p.elements ++ [element] }
  | none => { p with elements := [] }

instance : Surface SvgPicture where
  width := width
  height := height
  draw p call := .ok (p.apply call)

/-- The lines of the document before the elements of the picture `p`: the declaration, the opening
tag and the background. -/
def header (p : SvgPicture) : List Text :=
  let width := Text.ofInt p.width.toInt
  let height := Text.ofInt p.height.toInt
  [ascii "<?xml version=\"1.0\" encoding=\"UTF-8\"?>",
    ascii "<svg xmlns=\"http://www.w3.org/2000/svg\"" ++ SvgElement.attr "width" width ++
      SvgElement.attr "height" height ++
      SvgElement.attr "viewBox" (ascii "0 0 " ++ width ++ ascii " " ++ height) ++ ascii ">",
    ascii "  <rect width=\"100%\" height=\"100%\"" ++
      SvgElement.attr "fill" p.background.hex ++ ascii "/>"]

/-- The picture `p` as a document, with each element on a line of its own between the `header` and
the closing tag. -/
def document (p : SvgPicture) : Text :=
  (p.header ++ p.elements.map (fun e => ascii "  " ++ e.text) ++ [ascii "</svg>"]).flatMap
    (· ++ [Byte.newline])

end SvgPicture

end Sketch
