import Sketch.Proofs.Decimal
import Sketch.Proofs.Truncation
import Sketch.Proofs.Unsigned

/-!
# Which commands can be written

`Program.exists_read_iff` shows that a list of commands is what some program denotes, up to the
places of its statements, exactly if none of the numbers in it has a sign. A color may have any
name.

One half is `Program.unsigned_of_read`. For the other half a program is written, word by word with a
blank in front of each word (`written`). The words of an action are those of its statement, where a
number has its exact numeral (`Magnitude.numeral`) and the name of a color is quoted (`escape`). A
blank ends every token, so the words are read one by one (`Cursor.reads_written`), and the tokens
make up the statements of the actions (`Action.statement_words`).
-/

namespace Sketch

/-! ## Words -/

/-- The blank, which stands between words. -/
def Byte.blank : Byte := 32

/-- The `content` of a string literal with a backslash before each quote and each backslash, so that
it can stand between quotes. -/
def escape (content : Text) : Text :=
  content.flatMap fun b => if b = Byte.quote ∨ b = Byte.backslash then [Byte.backslash, b] else [b]

/-- The text that `escape` gives spells its `content` (`Escaped`). -/
theorem escaped_escape (content : Text) : Escaped (escape content) content := by
  induction content with
  | nil => exact .nil
  | cons b content ih =>
    rw [escape, List.flatMap_cons]
    by_cases hmark : b = Byte.quote ∨ b = Byte.backslash
    · rw [if_pos hmark]
      refine .itself ?_ ?_ ih
      · rcases hmark with rfl | rfl <;> decide
      · rcases hmark with rfl | rfl <;> decide
    · rw [if_neg hmark]
      exact .plain (fun hquote => hmark (.inl hquote)) (fun hslash => hmark (.inr hslash)) ih

/-- A reserved `word` spells itself as a keyword: it is a word, and it is written in small letters.
-/
theorem Spelling.reserved {word : Text} (h : word ∈ TokenKind.reserved) :
    Spelling .keyword word word := by
  have hwords : ∀ word ∈ TokenKind.reserved, Text.lower word = word ∧
      word.head?.any Byte.isWordStart ∧ word.tail.all Byte.isWordByte := by
    decide
  obtain ⟨hlower, hhead, htail⟩ := hwords word h
  cases word with
  | nil => simp at hhead
  | cons first tail =>
    have hword : IsWord (first :: tail) :=
      .intro (by simpa using hhead) (List.all_eq_true.mp htail)
    have hspelling := Spelling.keyword hword (.inl (hlower.symm ▸ h))
    rwa [hlower] at hspelling

/-- A token to be written: its `kind` and `text`, with bytes that spell it. -/
structure Word where
  kind : TokenKind
  text : Text
  /-- The bytes of the token. -/
  span : Text
  /-- The bytes spell the token. -/
  spelling : Spelling kind text span

namespace Word

/-- A reserved `word` to be written, which is a keyword that spells itself. -/
def reserved (word : Text) (h : word ∈ TokenKind.reserved) : Word :=
  ⟨.keyword, word, word, .reserved h⟩

/-- The numeral of the size of a number to be written. Its sign is lost, as a numeral has none. -/
def number : Binary64 → Word
  | .notNumber _ => ⟨.number, Magnitude.zero.numeral, _, .number (Magnitude.isNumeral_numeral _)⟩
  | .signed _ m => ⟨.number, m.numeral, _, .number m.isNumeral_numeral⟩

/-- A string literal with the given `content` to be written, which `escape` puts between quotes. -/
def quoted (content : Text) : Word := ⟨.string, content, _, .string (escaped_escape content)⟩

/-- The token of the word `w` that is read at the place `p`. -/
def token (w : Word) (p : Position) : Token := ⟨w.kind, w.text, p⟩

/-- A number `x` without a sign is read back from its word, wherever the word stands. -/
theorem isNumber_number {x : Binary64} (h : x.Unsigned) (p : Position) :
    ((number x).token p).IsNumber x := by
  obtain ⟨m, rfl⟩ := Binary64.unsigned_iff.mp h
  exact ⟨rfl, m.isNumeral_numeral, m.ofNumeral_numeral.symm⟩

end Word

/-- The words `ws` as a text, with a blank in front of each, the first one included. -/
def written (ws : List Word) : Text := ws.flatMap fun w => Byte.blank :: w.span

/-- The tokens of words that are written from the place `p` on, as `Token.ofSource` finds them. -/
def tokensAt (p : Position) : List Word → List Token
  | [] => []
  | w :: ws => w.token (p.next Byte.blank) :: tokensAt (p.after (Byte.blank :: w.span)) ws

/-- The tokens of the words `ws` and then `vs`, of which the second list starts at the place after
`written ws`. -/
theorem tokensAt_append (p : Position) (ws vs : List Word) :
    tokensAt p (ws ++ vs) = tokensAt p ws ++ tokensAt (p.after (written ws)) vs := by
  induction ws generalizing p with
  | nil => rfl
  | cons w ws ih =>
    have hplace : p.after (written (w :: ws)) =
        (p.after (Byte.blank :: w.span)).after (written ws) := Position.after_append _ _ _
    rw [List.cons_append, tokensAt, ih, hplace]
    rfl

/-- A blank ends a token of every `kind`, so that words with a blank between them stay apart. -/
theorem TokenKind.endsBefore_blank (kind : TokenKind) (span : Text) :
    kind.EndsBefore Byte.blank span := by
  cases kind with
  | number => exact ⟨rfl, fun hdot => nomatch hdot⟩
  | keyword | colorName => exact (rfl : Byte.isWordByte Byte.blank = false)
  | unknown => exact fun _ => rfl
  | string | leftParen | rightParen | comma | endOfInput => trivial

/-- A cursor in front of the words `ws`, as `written` gives them, reads their tokens one by one, up
to the end. -/
theorem Cursor.reads_written (p : Position) (ws : List Word) :
    Reads ⟨written ws, p⟩ (tokensAt p ws) ⟨[], p.after (written ws)⟩ := by
  induction ws generalizing p with
  | nil => exact .nil
  | cons w ws ih =>
    -- The blank in front of a word is the layout of its piece.
    let piece : Piece := ⟨[Byte.blank], w.span, w.token (p.next Byte.blank)⟩
    have hends : ∀ b ∈ (written ws).head?, w.kind.EndsBefore b w.span := by
      intro b hb
      cases ws with
      | nil => cases hb
      | cons v ws =>
        obtain rfl := Option.some.inj hb
        exact w.kind.endsBefore_blank w.span
    have hfits : piece.Fits (written ws) := ⟨.space rfl .nil, w.spelling, hends⟩
    have hplace : p.after (written (w :: ws)) = (p.after piece.text).after (written ws) :=
      Position.after_append _ _ _
    rw [hplace]
    exact .cons (scan_of_fits hfits p) w.spelling.kind_ne (ih (p.after piece.text))

/-- The text that `written` gives is read as the tokens of its words `ws` and the end marker. -/
theorem Token.ofSource_written (ws : List Word) :
    ofSource (written ws) = .ok (tokensAt .start ws ++
      [⟨.endOfInput, [], Position.start.after (written ws)⟩]) := by
  have hend := Cursor.scan_of_endLayout (c := ⟨[], Position.start.after (written ws)⟩)
    (.closed .nil)
  rw [ofSource, Cursor.ofSource, (Cursor.reads_written .start ws).scanAll,
    Cursor.scanAll_of_endOfInput hend rfl]
  rfl

/-! ## Statements -/

namespace Action

/-- The words of the statement of an action, in the order of the grammar. A color is written as a
string literal, whatever its name is. -/
def words : Action → List Word
  | drawLine x1 y1 x2 y2 =>
    .reserved (ascii "draw") (by decide) :: .reserved (ascii "line") (by decide) ::
      [x1, y1, x2, y2].map .number
  | drawCircle x y radius =>
    .reserved (ascii "draw") (by decide) :: .reserved (ascii "circle") (by decide) ::
      [x, y, radius].map .number
  | drawRectangle x y width height =>
    .reserved (ascii "draw") (by decide) :: .reserved (ascii "rectangle") (by decide) ::
      [x, y, width, height].map .number
  | setColor name =>
    [.reserved (ascii "set") (by decide), .reserved (ascii "color") (by decide), .quoted name]
  | clear => [.reserved (ascii "clear") (by decide)]
  | move x y => .reserved (ascii "move") (by decide) :: [x, y].map .number
  | penUp => [.reserved (ascii "pen") (by decide), .reserved (ascii "up") (by decide)]
  | penDown => [.reserved (ascii "pen") (by decide), .reserved (ascii "down") (by decide)]

/-- The `words` of an action `a` without signs make up a `Statement` of it, at the place of the
first word. -/
theorem statement_words {a : Action} (h : a.Unsigned) (p : Position) :
    Statement (tokensAt p a.words) ⟨a, p.next Byte.blank⟩ := by
  cases a with
  | drawLine x1 y1 x2 y2 =>
    obtain ⟨hx1, hy1, hx2, hy2⟩ := unsigned_drawLine.mp h
    exact .drawLine ⟨rfl, rfl⟩ ⟨rfl, rfl⟩ (Word.isNumber_number hx1 _)
      (Word.isNumber_number hy1 _) (Word.isNumber_number hx2 _) (Word.isNumber_number hy2 _)
  | drawCircle x y radius =>
    obtain ⟨hx, hy, hradius⟩ := unsigned_drawCircle.mp h
    exact .drawCircle ⟨rfl, rfl⟩ ⟨rfl, rfl⟩ (Word.isNumber_number hx _)
      (Word.isNumber_number hy _) (Word.isNumber_number hradius _)
  | drawRectangle x y width height =>
    obtain ⟨hx, hy, hwidth, hheight⟩ := unsigned_drawRectangle.mp h
    exact .drawRectangle ⟨rfl, rfl⟩ ⟨rfl, rfl⟩ (Word.isNumber_number hx _)
      (Word.isNumber_number hy _) (Word.isNumber_number hwidth _)
      (Word.isNumber_number hheight _)
  -- The name is written as a string literal, so it may hold any bytes.
  | setColor name =>
    have halike : Text.alike (ascii "color") (ascii "color") := by decide
    exact .setColor ⟨rfl, rfl⟩ halike (.inr rfl)
  | clear => exact .clear ⟨rfl, rfl⟩
  | move x y =>
    obtain ⟨hx, hy⟩ := unsigned_move.mp h
    exact .move ⟨rfl, rfl⟩ (Word.isNumber_number hx _) (Word.isNumber_number hy _)
  | penUp => exact .penUp ⟨rfl, rfl⟩ rfl
  | penDown => exact .penDown ⟨rfl, rfl⟩ rfl

/-- The `words` of `actions` without signs make up one `Statement` for each of them, in order. -/
theorem exists_statements {actions : List Action} (h : ∀ a ∈ actions, a.Unsigned)
    (p : Position) : ∃ (pieces : List (List Token)) (cs : List Command),
      pieces.flatten = tokensAt p (actions.flatMap words) ∧ List.Forall₂ Statement pieces cs ∧
        cs.map Command.action = actions := by
  induction actions generalizing p with
  | nil => exact ⟨[], [], rfl, .nil, rfl⟩
  | cons a actions ih =>
    obtain ⟨ha, hrest⟩ := List.forall_mem_cons.mp h
    obtain ⟨pieces, cs, hflat, hall, hactions⟩ := ih hrest (p.after (written a.words))
    refine ⟨tokensAt p a.words :: pieces, _ :: cs, ?_, .cons (statement_words ha p) hall, ?_⟩
    · rw [List.flatten_cons, hflat, List.flatMap_cons, tokensAt_append]
    · rw [List.map_cons, hactions]

end Action

/-! ## Programs -/

namespace Program

/-- A program that is written for the given `actions`, statement by statement. -/
def ofActions (actions : List Action) : Text := written (actions.flatMap Action.words)

/-- The program `ofActions actions` denotes the `actions`, if none of them has a sign. -/
theorem exists_read_ofActions {actions : List Action} (h : ∀ a ∈ actions, a.Unsigned) :
    ∃ cs, read false (ofActions actions) = .ok cs ∧ cs.map Command.action = actions := by
  obtain ⟨pieces, cs, hflat, hall, hactions⟩ := Action.exists_statements h .start
  have htokens := Token.ofSource_written (actions.flatMap Action.words)
  have hend := (Cursor.reads_written .start (actions.flatMap Action.words)).kind_ne
  refine ⟨cs, ?_, hactions⟩
  rw [ofActions, (read_of_ofSource htokens).1, mapError_eq_ok_iff]
  exact statements_complete (hflat.trans (beforeEnd_eq_self hend).symm) hall _

example : ofActions [.setColor (ascii "a\"b"), .penUp] = ascii " set color \"a\\\"b\" pen up" := by
  decide

/-- Some program denotes a list `cs` of commands, up to the places of its statements, exactly if no
number in it has a sign (`Binary64.Unsigned`). It makes no difference whether the end marker is
read, as `marked` says. -/
theorem exists_read_iff (marked : Bool) (cs : List Command) :
    (∃ source ds, read marked source = .ok ds ∧ ds.map Command.action = cs.map Command.action) ↔
      ∀ c ∈ cs, ∀ x ∈ c.action.numbers, x.Unsigned := by
  constructor
  · rintro ⟨source, ds, hread, hactions⟩ c hc
    have hmem : c.action ∈ ds.map Command.action := hactions ▸ List.mem_map_of_mem hc
    obtain ⟨d, hd, haction⟩ := List.mem_map.mp hmem
    rw [← haction]
    exact unsigned_of_read hread d hd
  · intro h
    have hactions : ∀ a ∈ cs.map Command.action, a.Unsigned := List.forall_mem_map.mpr h
    obtain ⟨ds, hread, hds⟩ := exists_read_ofActions hactions
    exact ⟨ofActions (cs.map Command.action), ds, (read_eq_ok_iff marked).mpr hread, hds⟩

end Program

end Sketch
