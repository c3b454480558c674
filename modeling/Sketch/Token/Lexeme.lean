import Sketch.Token

/-!
# Lexemes

A lexeme is a token without its place: what stands at the head of a text that starts with neither
white space nor a comment. Numbers and words reach as far as they can, a string literal reaches to
the quote that closes it, and any other byte stands alone. Only a string literal can be broken: it
is when no quote closes it.
-/

namespace Sketch

/-- A token at the head of a text, without its place. -/
structure Lexeme where
  /-- What the token is. -/
  kind : TokenKind
  /-- The text of the token. -/
  text : Text
  /-- The bytes that the lexeme takes up after its first one. -/
  tail : Text
deriving DecidableEq

namespace Lexeme

/-- The digits at the head of a text `t`, as many as there are. -/
def digits (t : Text) : Text := t.takeWhile Byte.isDigit

/-- What a number with the byte `first` goes on with in `rest`: digits, and one point with more
digits unless the number started with a point. A second point starts the next token. -/
def numberTail (first : Byte) (rest : Text) : Text :=
  if first == Byte.dot then digits rest
  else
    match rest.dropWhile Byte.isDigit with
    | [] => digits rest
    | b :: after => if b == Byte.dot then digits rest ++ b :: digits after else digits rest

/-- What a byte after a backslash stands for: `n` is a line feed, `t` is a tab, and any other byte
is itself. -/
def unescape (b : Byte) : Byte :=
  if b == 110 then Byte.newline else if b == 116 then Byte.tab else b

/-- The content of a string literal and the bytes it takes up, from after its opening quote up to
and with the quote that closes it. Nothing if no quote closes it, also right after a backslash. -/
def quoted? : Text → Option (Text × Text)
  | [] => none
  | b :: rest =>
    if b == Byte.quote then some ([], [b])
    else if b == Byte.backslash then
      match rest with
      | [] => none
      | e :: rest =>
        (quoted? rest).map fun (content, span) => (unescape e :: content, b :: e :: span)
    else (quoted? rest).map fun (content, span) => (b :: content, b :: span)

/-- The lexeme with the byte `first` in front of `rest`, and nothing for a string literal that no
quote closes. Numbers are tried first, then literals and words, and any other byte is a token by
itself. -/
def read? (first : Byte) (rest : Text) : Option Lexeme :=
  if first.isDigit || (first == Byte.dot && rest.head?.any Byte.isDigit) then
    some ⟨.number, first :: numberTail first rest, numberTail first rest⟩
  else if first == Byte.quote then
    (quoted? rest).map fun (content, span) => ⟨.string, content, span⟩
  else if first.isWordStart then
    let tail := rest.takeWhile Byte.isWordByte
    let word := Text.lower (first :: tail)
    some ⟨.ofWord word, word, tail⟩
  else some ⟨.ofSymbol first, [first], []⟩

end Lexeme

end Sketch
