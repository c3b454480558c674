import Sketch.Color
import Sketch.Position

/-!
# Tokens

A program is a sequence of tokens: words, numbers, string literals and single symbols, ended by a
marker. A word is a color name if the color table has it and it is no keyword; every other word
counts as a keyword, known or not, so that the grammar is the one to refuse it.
-/

namespace Sketch

/-- What a token is. -/
inductive TokenKind where
  | keyword
  | number
  | string
  | colorName
  | leftParen
  | rightParen
  | comma
  /-- A byte that starts no other token. -/
  | unknown
  /-- The marker after the last token of a program. -/
  | endOfInput
deriving DecidableEq

namespace TokenKind

/-- The name of the kind, as messages print it. -/
def name : TokenKind → Text
  | keyword => ascii "KEYWORD"
  | number => ascii "NUMBER"
  | string => ascii "STRING"
  | colorName => ascii "COLOR"
  | leftParen => ascii "LPAREN"
  | rightParen => ascii "RPAREN"
  | comma => ascii "COMMA"
  | unknown => ascii "UNKNOWN"
  | endOfInput => ascii "EOF"

/-- The reserved words of the language, in small letters, of which some start no statement. -/
def reserved : List Text :=
  ["draw", "line", "circle", "rectangle", "set", "color", "clear", "move", "to", "from", "pen",
    "up", "down", "fill"].map ascii

/-- The `word` is one of the `reserved` words, as it is written. -/
def isReserved (word : Text) : Bool := reserved.contains word

/-- The kind of a `word` in small letters: the names of colors are told apart from the other words,
of which the `reserved` ones come first. -/
def ofWord (word : Text) : TokenKind :=
  if isReserved word then keyword else if Color.isName word then colorName else keyword

/-- The kind of a token of the single byte `b`: a bracket, a comma, or `unknown`. -/
def ofSymbol (b : Byte) : TokenKind :=
  if b == 40 then leftParen else if b == 41 then rightParen else if b == 44 then comma else unknown

end TokenKind

/-- A token of a program. -/
structure Token where
  /-- What the token is. -/
  kind : TokenKind
  /-- A word in small letters, the content of a string literal, or the bytes of any other token. -/
  text : Text
  /-- Where the token starts. -/
  position : Position
deriving DecidableEq

end Sketch
