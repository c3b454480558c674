import Sketch.Text

/-!
# Colors

A color is three byte components. Fourteen names stand for colors, in any case of letters; every
other name is drawn in black.
-/

namespace Sketch

/-- A color by its components. -/
structure Color where
  red : Byte
  green : Byte
  blue : Byte
deriving DecidableEq

namespace Color

/-- The color of a fresh pen, and the color that `ofName` gives to every name that is not in the
`table`. -/
def black : Color := ⟨0x00, 0x00, 0x00⟩

/-- The names of colors, in small letters, with the colors that they stand for. Two spellings of
gray have the same color. -/
def table : List (Text × Color) :=
  [(ascii "red", ⟨0xFF, 0x00, 0x00⟩),
    (ascii "green", ⟨0x00, 0xFF, 0x00⟩),
    (ascii "blue", ⟨0x00, 0x00, 0xFF⟩),
    (ascii "yellow", ⟨0xFF, 0xFF, 0x00⟩),
    (ascii "orange", ⟨0xFF, 0xA5, 0x00⟩),
    (ascii "purple", ⟨0x80, 0x00, 0x80⟩),
    (ascii "pink", ⟨0xFF, 0xC0, 0xCB⟩),
    (ascii "black", black),
    (ascii "white", ⟨0xFF, 0xFF, 0xFF⟩),
    (ascii "gray", ⟨0x80, 0x80, 0x80⟩),
    (ascii "grey", ⟨0x80, 0x80, 0x80⟩),
    (ascii "brown", ⟨0xA5, 0x2A, 0x2A⟩),
    (ascii "cyan", ⟨0x00, 0xFF, 0xFF⟩),
    (ascii "magenta", ⟨0xFF, 0x00, 0xFF⟩)]

/-- The color that the `table` has for a `name` in any case of letters. -/
def named? (name : Text) : Option Color := table.lookup (Text.lower name)

/-- The text is the name of a color in any case of letters: the `table` has it. -/
def isName (name : Text) : Bool := (named? name).isSome

/-- The color to draw in for a `name`: the one that `named?` finds, or `black` if the name is
unknown. -/
def ofName (name : Text) : Color := (named? name).getD black

/-- The color as a number sign and six hexadecimal digits. -/
def hex (c : Color) : Text :=
  Byte.hash :: (Text.hexByte c.red ++ Text.hexByte c.green ++ Text.hexByte c.blue)

/-- Names that differ only in case are the same name: `named?` finds the same color for a name and
for its small letters. -/
theorem named?_lower (name : Text) : named? (Text.lower name) = named? name := by
  rw [named?, Text.lower_lower, named?]

/-- A `name` is the name of a color exactly if its small letters are. -/
theorem isName_lower (name : Text) : isName (Text.lower name) = isName name := by
  rw [isName, named?_lower, isName]

/-- Names that are `Text.alike`, which differ in the case of letters only, stand for the same color.
-/
theorem ofName_eq_of_alike {name name' : Text} (h : Text.alike name name') :
    ofName name = ofName name' := by
  have hlower : Text.lower name = Text.lower name' := eq_of_beq h
  rw [ofName, ofName, named?, named?, hlower]

/-- A `name` that `isName` does not know stands for `black`. -/
theorem ofName_of_not_isName {name : Text} (h : ¬ isName name) : ofName name = black := by
  have hnone : named? name = none := by simpa [isName] using h
  rw [ofName, hnone]
  rfl

end Color

end Sketch
