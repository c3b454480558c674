import Sketch.Binary64.Rounding

/-!
# Pixels

Drawing happens on a grid of pixels whose coordinates are 32-bit integers. A coordinate of the
language falls on the pixel at its floor, if there is one (`Binary64.pixel?`).
-/

namespace Sketch

/-- The coordinate of a pixel. -/
abbrev Pixel := Int32

/-- A box on the grid, given by two opposite corners in any order. -/
structure Box where
  x1 : Pixel
  y1 : Pixel
  x2 : Pixel
  y2 : Pixel
deriving DecidableEq

/-- The pixel at the floor of a number. Infinite numbers, and numbers whose floor is not a 32-bit
integer, have none. -/
def Binary64.pixel? (x : Binary64) : Option Pixel :=
  x.floor?.bind fun z =>
    if Int32.minValue.toInt ≤ z ∧ z ≤ Int32.maxValue.toInt then some (.ofInt z) else none

end Sketch
