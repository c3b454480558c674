import Sketch.Text

/-!
# Positions

A position in a program is the line, counted from one, and the number of bytes before it on its
line. Both are 32-bit words and wrap around. `Position.after_append` lets positions be followed
piece by piece.
-/

namespace Sketch

/-- A place in a program. -/
structure Position where
  /-- The line, where the first is 1. -/
  line : UInt32
  /-- The bytes before the place on its line. -/
  column : UInt32
deriving DecidableEq

namespace Position

/-- Where a program starts: line 1, column 0. -/
def start : Position := ⟨1, 0⟩

/-- The place after the byte `b` at the place `p`: a line feed starts the next line, and any other
byte takes one column. Both counts wrap around. -/
def next (p : Position) (b : Byte) : Position :=
  if b == Byte.newline then ⟨p.line + 1, 0⟩ else ⟨p.line, p.column + 1⟩

/-- The place after a `piece` of the program that starts at `p`, found by taking `next` for each
byte. -/
def after (p : Position) (piece : Text) : Position := piece.foldl next p

/-- The place in words, as messages and descriptions name it: `line L, column C`. -/
def text (p : Position) : Text :=
  ascii "line " ++ Text.ofNat p.line.toNat ++ ascii ", column " ++ Text.ofNat p.column.toNat

/-- The place after an empty piece is the place `p` itself. -/
@[simp]
theorem after_nil (p : Position) : p.after [] = p := rfl

/-- The place after a piece with the first byte `b` is found from `p.next b` on. -/
@[simp]
theorem after_cons (p : Position) (b : Byte) (piece : Text) :
    p.after (b :: piece) = (p.next b).after piece := rfl

/-- The place after two pieces `s` and `t` is the place after `t`, counted from the place after `s`.
-/
theorem after_append (p : Position) (s t : Text) : p.after (s ++ t) = (p.after s).after t :=
  List.foldl_append

end Position

end Sketch
