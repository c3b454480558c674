import Sketch.Token

/-!
# Diagnostics

A program is refused for one reason, at one place: a string literal is not closed, or a token does
not fit the grammar. Each reason has one wording, and the message of a diagnostic ends before the
first zero byte that a token may bring into it.
-/

namespace Sketch

/-- No quote closes a string literal. The place is the end of the program. -/
structure LexicalError where
  position : Position
deriving DecidableEq

/-- The statements that take numbers. -/
inductive NumericStatement where
  | drawLine
  | drawCircle
  | drawRectangle
  | move
deriving DecidableEq

/-- The numbers that a statement takes, in words. It is the text of `SyntaxProblem.numberExpected`.
-/
def NumericStatement.usage : NumericStatement → Text
  | drawLine => ascii "draw line requires 4 numbers: x1 y1 x2 y2"
  | drawCircle => ascii "draw circle requires 3 numbers: x y radius"
  | drawRectangle => ascii "draw rectangle requires 4 numbers: x y width height"
  | move => ascii "move requires 2 numbers: x y"

/-- Why a token does not fit the grammar. -/
inductive SyntaxProblem where
  /-- A statement starts with a token that is no keyword. -/
  | commandExpected (found : TokenKind)
  /-- A statement starts with a word that names no command. -/
  | unknownCommand (word : Text)
  /-- No keyword follows `draw`. -/
  | shapeExpected
  /-- A word that names no shape follows `draw`. -/
  | unknownShape (word : Text)
  /-- A number is missing from the statement. -/
  | numberExpected (statement : NumericStatement)
  /-- A token of the number kind is no number literal. -/
  | invalidNumber (literal : Text)
  /-- The word `color` does not follow `set`. -/
  | colorKeywordExpected
  /-- No color name and no string follows `set color`. -/
  | colorNameExpected
  /-- Nothing follows `pen`. -/
  | penActionExpected
  /-- Neither `up` nor `down` follows `pen`. -/
  | unknownPenAction (found : Text)
deriving DecidableEq

/-- The wording of a problem. -/
def SyntaxProblem.text : SyntaxProblem → Text
  | commandExpected found => ascii "Expected command keyword, got " ++ found.name
  | unknownCommand word => ascii "Unknown command: " ++ word
  | shapeExpected => ascii "Expected shape type after 'draw'"
  | unknownShape word => ascii "Unknown shape type: " ++ word
  | numberExpected statement => statement.usage
  | invalidNumber literal => ascii "Invalid number: " ++ literal
  | colorKeywordExpected => ascii "Expected 'color' after 'set'"
  | colorNameExpected => ascii "Expected color name after 'set color'"
  | penActionExpected => ascii "Expected 'up' or 'down' after 'pen'"
  | unknownPenAction found => ascii "Expected 'up' or 'down', got '" ++ found ++ ascii "'"

/-- A token does not fit the grammar. -/
structure SyntaxError where
  problem : SyntaxProblem
  /-- The place that is reported. -/
  position : Position
deriving DecidableEq

/-- Why a program is refused. -/
inductive Diagnostic where
  | lexical (error : LexicalError)
  | grammatical (error : SyntaxError)
deriving DecidableEq

/-- The message of a lexical error `e`, with its place in front of the reason. -/
def LexicalError.message (e : LexicalError) : Text :=
  ascii "Lexical error at " ++ e.position.text ++ ascii ": Unterminated string"

/-- The message of a syntax error `e`, with its place in front of the problem. It ends before the
first zero byte, which a token in the problem may hold. -/
def SyntaxError.message (e : SyntaxError) : Text :=
  Text.beforeNul (ascii "Parse error at " ++ e.position.text ++ ascii ": " ++ e.problem.text)

/-- The message of a diagnostic, be it lexical or grammatical. -/
def Diagnostic.message : Diagnostic → Text
  | lexical e => e.message
  | grammatical e => e.message

end Sketch
