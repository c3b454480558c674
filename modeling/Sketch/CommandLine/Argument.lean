import Sketch.Text

/-!
# Arguments

What the program is called with is a list of arguments, and a zero byte ends each of them. So an
argument is a text without zero bytes; every such text is an argument (`text_ofText_of_noNul`), and
nothing after a zero byte can tell two arguments apart (`ofText_append_nul`).
-/

namespace Sketch

/-- An argument of the program: a text without zero bytes. -/
@[ext]
structure Argument where
  /-- The bytes of the argument. -/
  text : Text
  /-- None of the bytes is zero. -/
  noNul : ∀ b ∈ text, b ≠ 0
deriving DecidableEq

namespace Argument

/-- The argument that a text `t` stands for: what it has before its first zero byte. -/
def ofText (t : Text) : Argument := ⟨Text.beforeNul t, fun _ => Text.ne_zero_of_mem_beforeNul⟩

/-- A text `t` without zero bytes is an argument as it is. -/
theorem text_ofText_of_noNul {t : Text} (h : ∀ b ∈ t, b ≠ 0) : (ofText t).text = t := by
  simpa [ofText, Text.beforeNul] using Text.beforeNul_append t [] h

/-- The text of an argument `a` stands for that argument. -/
@[simp]
theorem ofText_text (a : Argument) : ofText a.text = a :=
  Argument.ext (text_ofText_of_noNul a.noNul)

/-- What follows a zero byte does not matter: `ofText` sees only the text `s` in front of it. -/
theorem ofText_append_nul (s t : Text) : ofText (s ++ 0 :: t) = ofText s :=
  Argument.ext (Text.beforeNul_append_nul s t)

end Argument

end Sketch
