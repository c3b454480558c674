import Sketch.Token.Lexeme
import Sketch.Diagnostic

/-!
# Reading tokens

A cursor is a place in a program together with what follows it. `Cursor.scan` reads the next token
and moves the cursor past it, `Cursor.scanAll` reads on to the end, and a `Reader` adds one token
of lookahead. Reading always ends because every token but the end marker takes up at least one
byte (`Cursor.scan_rest_lt`).
-/

namespace Sketch

/-- A place in a program and the bytes that follow it. -/
structure Cursor where
  /-- The bytes still to be read. -/
  rest : Text
  /-- The place of the first of them. -/
  position : Position
deriving DecidableEq

namespace Cursor

/-- The cursor at the start of the program `source`. -/
def ofSource (source : Text) : Cursor := ⟨source, .start⟩

/-- The cursor after `count` bytes of what follows the cursor `c`, with the place found by counting
them. -/
def advance (c : Cursor) (count : Nat) : Cursor :=
  ⟨c.rest.drop count, c.position.after (c.rest.take count)⟩

/-- The cursor after the white space and the comments at the head of a text at the place `p`. A
comment runs from a number sign to the end of its line, and `inComment` says whether one is open. -/
def afterLayout (inComment : Bool) (p : Position) : Text → Cursor
  | [] => ⟨[], p⟩
  | b :: rest =>
    if inComment then afterLayout (b != Byte.newline) (p.next b) rest
    else if b.isSpace then afterLayout false (p.next b) rest
    else if b == Byte.hash then afterLayout true (p.next b) rest
    else ⟨b :: rest, p⟩

/-- The cursor after the white space and comments that follow `c`, found by `afterLayout` outside
any comment. -/
def skipLayout (c : Cursor) : Cursor := afterLayout false c.position c.rest

/-- The next token, and the cursor after it. The end of the program is a token that can be read
again and again, and a string literal that is not closed takes the cursor to the end. -/
def scan (c : Cursor) : Except LexicalError Token × Cursor :=
  let c := c.skipLayout
  match c.rest with
  | [] => (.ok ⟨.endOfInput, [], c.position⟩, c)
  | b :: rest =>
    match Lexeme.read? b rest with
    | some l => (.ok ⟨l.kind, l.text, c.position⟩, c.advance (l.tail.length + 1))
    | none =>
      let c := c.advance c.rest.length
      (.error ⟨c.position⟩, c)

/-- Skipping white space and comments adds nothing: what `afterLayout` leaves of a text `t` is no
longer than `t`. -/
theorem length_rest_afterLayout_le (inComment : Bool) (p : Position) (t : Text) :
    (afterLayout inComment p t).rest.length ≤ t.length := by
  induction t generalizing inComment p with
  | nil => simp [afterLayout]
  | cons b rest ih =>
    unfold afterLayout
    split
    · exact Nat.le_succ_of_le (ih _ _)
    · split
      · exact Nat.le_succ_of_le (ih _ _)
      · split
        · exact Nat.le_succ_of_le (ih _ _)
        · exact Nat.le_refl _

/-- A token `t` other than the end marker takes up at least one byte, so that `scan` leaves less
than there was. This ends the recursion of `scanAll`. -/
theorem scan_rest_lt {c c' : Cursor} {t : Token} (h : c.scan = (.ok t, c'))
    (ht : t.kind ≠ .endOfInput) : c'.rest.length < c.rest.length := by
  have hle : c.skipLayout.rest.length ≤ c.rest.length := length_rest_afterLayout_le _ _ _
  unfold scan at h
  grind [advance]

/-- All tokens from the cursor on, up to and with the end marker, and the cursor at the end. -/
def scanAll (c : Cursor) : Except LexicalError (List Token) × Cursor :=
  match h : c.scan with
  | (.error e, c') => (.error e, c')
  | (.ok t, c') =>
    if ht : t.kind = .endOfInput then (.ok [t], c')
    else
      have : c'.rest.length < c.rest.length := scan_rest_lt h ht
      let (tokens, last) := scanAll c'
      (tokens.map (t :: ·), last)
termination_by c.rest.length

/-- An error of `scan` ends the reading: `scanAll` gives the error and the cursor where it came up.
-/
theorem scanAll_of_error {c c' : Cursor} {e : LexicalError} (h : c.scan = (.error e, c')) :
    c.scanAll = (.error e, c') := by
  rw [scanAll]
  split
  · next e' c'' he =>
    obtain ⟨rfl, rfl⟩ : e = e' ∧ c' = c'' := by simpa [h] using he
    rfl
  · next t c'' ht => simp [h] at ht

/-- Where `scan` finds the end marker, `scanAll` reads nothing but the marker. -/
theorem scanAll_of_endOfInput {c c' : Cursor} {t : Token} (h : c.scan = (.ok t, c'))
    (ht : t.kind = .endOfInput) : c.scanAll = (.ok [t], c') := by
  rw [scanAll]
  split
  · next e c'' he => simp [h] at he
  · next t' c'' ht' =>
    obtain ⟨rfl, rfl⟩ : t = t' ∧ c' = c'' := by simpa [h] using ht'
    rw [dif_pos ht]

/-- Where `scan` finds any other token `t`, `scanAll` gives it in front of what it reads from the
next cursor `c'` on. -/
theorem scanAll_of_token {c c' : Cursor} {t : Token} (h : c.scan = (.ok t, c'))
    (ht : t.kind ≠ .endOfInput) :
    c.scanAll = (c'.scanAll.1.map (t :: ·), c'.scanAll.2) := by
  rw [scanAll]
  split
  · next e c'' he => simp [h] at he
  · next t' c'' ht' =>
    obtain ⟨rfl, rfl⟩ : t = t' ∧ c' = c'' := by simpa [h] using ht'
    rw [dif_neg ht]

end Cursor

/-- The tokens of the program `source`, up to and with the end marker, or the error of a literal
that is not closed. -/
def Token.ofSource (source : Text) : Except LexicalError (List Token) :=
  (Cursor.ofSource source).scanAll.1

/-- A cursor with at most one token of lookahead. -/
structure Reader where
  /-- Where the tokens not yet scanned start. -/
  cursor : Cursor
  /-- The token that was looked at and not yet taken. -/
  ahead : Option Token
deriving DecidableEq

namespace Reader

/-- The reader at the start of the program `source`, with no token looked at. -/
def ofSource (source : Text) : Reader := ⟨.ofSource source, none⟩

/-- Take the next token of the reader `r`: the one that was looked at, or else the one that
`Cursor.scan` finds. -/
def next (r : Reader) : Except LexicalError Token × Reader :=
  match r.ahead with
  | some t => (.ok t, ⟨r.cursor, none⟩)
  | none => let (result, cursor) := r.cursor.scan; (result, ⟨cursor, none⟩)

/-- Look at the next token of the reader `r` without taking it. The token is kept in `ahead`, and an
error is not. -/
def peek (r : Reader) : Except LexicalError Token × Reader :=
  let (result, r) := r.next
  (result, ⟨r.cursor, result.toOption⟩)

/-- Take all remaining tokens of the reader `r`, up to and with the end marker, starting with the
one that was looked at. -/
def takeAll (r : Reader) : Except LexicalError (List Token) × Reader :=
  match r.ahead with
  | some t =>
    if t.kind = .endOfInput then (.ok [t], ⟨r.cursor, none⟩)
    else let (tokens, cursor) := r.cursor.scanAll; (tokens.map (t :: ·), ⟨cursor, none⟩)
  | none => let (tokens, cursor) := r.cursor.scanAll; (tokens, ⟨cursor, none⟩)

/-- Every byte has been scanned. A token that the reader `r` has looked at may still be left. -/
def atEnd (r : Reader) : Bool := r.cursor.rest.isEmpty

end Reader

end Sketch
