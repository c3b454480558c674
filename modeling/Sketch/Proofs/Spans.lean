import Sketch.Proofs.Layout
import Sketch.Proofs.Spelling

/-!
# Tokens and the bytes of their program

Reading cuts a program into pieces, each of them layout and then the bytes of one token, and a last
layout (`IsCut`). `Token.ofSource_isCut` shows that nothing else is in the program, that each token
is spelled by its bytes and goes on as far as it can, and that its place is found by counting the
bytes in front of them.

One token is read by `Cursor.scan_spec`. `Cursor.scanAll_spec` goes on to the end by induction over
the tokens, with the bytes read so far in front.
-/

namespace Sketch

/-- A piece of a program: layout, and the bytes of a token after it. -/
structure Piece where
  /-- The layout in front of the token. -/
  gap : Text
  /-- The bytes of the token. -/
  span : Text
  /-- The token. -/
  token : Token

namespace Piece

/-- The bytes of a `piece` in the order of the program: the layout of its `gap`, and then its
`span`. -/
def text (piece : Piece) : Text := piece.gap ++ piece.span

/-- The `piece` is well cut in front of the bytes `after` it: its `gap` is layout, its `span` spells
its token, and `after` does not go on with that token. -/
structure Fits (piece : Piece) (after : Text) : Prop where
  /-- The bytes in front of the token are layout. -/
  gap : Layout piece.gap
  /-- The token is spelled by its bytes. -/
  spelling : Spelling piece.token.kind piece.token.text piece.span
  /-- What follows does not belong to the token. -/
  ends : ∀ b ∈ after.head?, piece.token.kind.EndsBefore b piece.span

end Piece

namespace Cursor

/-- A cursor that stands in front of `span` and advances by its length stands `after` it, at the
place that counting its bytes gives. -/
theorem advance_append (span after : Text) (p : Position) :
    (Cursor.mk (span ++ after) p).advance span.length = ⟨after, p.after span⟩ := by
  rw [advance, List.drop_left, List.take_left]

/-- A `scan` that succeeds either comes to the end of the program, where all that is left is layout,
or takes up one piece `piece` with its token, which `Fits` what is left to the cursor `c'`. -/
theorem scan_spec {c c' : Cursor} {t : Token} (h : c.scan = (.ok t, c')) :
    (t = ⟨.endOfInput, [], c.position.after c.rest⟩ ∧ EndLayout c.rest) ∨
      ∃ piece : Piece, piece.token = t ∧ c.rest = piece.text ++ c'.rest ∧ piece.Fits c'.rest ∧
        t.position = c.position.after piece.gap ∧ c'.position = c.position.after piece.text := by
  obtain ⟨gap, hgap⟩ : ∃ gap, Skips c.position c.rest c.skipLayout gap :=
    exists_skips c.position c.rest
  unfold scan at h
  generalize c.skipLayout = skipped at h hgap
  obtain ⟨rest, p⟩ := skipped
  have hp : p = c.position.after gap := hgap.place
  -- Past the layout is the end of the program or the first byte of a token.
  cases rest with
  | nil =>
    left
    obtain ⟨rfl, rfl⟩ : ⟨.endOfInput, [], p⟩ = t ∧ ⟨[], p⟩ = c' := by simpa using h
    have hrest : c.rest = gap := by rw [hgap.text, List.append_nil]
    exact ⟨by rw [hp, hrest], hrest ▸ hgap.layout_end rfl⟩
  | cons b rest =>
    right
    obtain ⟨hspace, hhash⟩ := hgap.head b rfl
    cases hread : Lexeme.read? b rest with
    | none => simp [hread] at h
    | some l =>
      obtain ⟨rfl, rfl⟩ : ⟨l.kind, l.text, p⟩ = t ∧
          (Cursor.mk (b :: rest) p).advance (l.tail.length + 1) = c' := by
        simpa [hread] using h
      obtain ⟨hspelling, after, rfl, hends⟩ := Lexeme.read?_spec hspace hhash hread
      have hadvance := advance_append (b :: l.tail) after p
      rw [List.length_cons, List.cons_append] at hadvance
      rw [hadvance]
      have hlayout : Layout gap := hgap.layout (by simp)
      -- l.tail :: The piece is the layout that was skipped and the bytes that the cursor advanced
      -- over.
      refine ⟨⟨gap, b :: l.tail, ⟨l.kind, l.text, p⟩⟩, rfl, ?_, ⟨hlayout, hspelling, hends⟩, hp, ?_⟩
      · rw [hgap.text, Piece.text, List.append_assoc, List.cons_append]
      · rw [Piece.text, Position.after_append, hp]

/-- A `scanAll` that succeeds cuts what is left of a program into `pieces` and a `trailing` layout,
and its last token is the end marker. The bytes `before` the cursor are what the places are counted
from. -/
theorem scanAll_spec {c : Cursor} {tokens : List Token} (h : c.scanAll.1 = .ok tokens)
    (before : Text) (hplace : c.position = Position.start.after before) :
    ∃ (pieces : List Piece) (trailing : Text),
      tokens = pieces.map Piece.token ++
        [⟨.endOfInput, [], Position.start.after (before ++ c.rest)⟩] ∧
      c.rest = pieces.flatMap Piece.text ++ trailing ∧ EndLayout trailing ∧
      ∀ earlier piece later, pieces = earlier ++ piece :: later →
        piece.Fits (later.flatMap Piece.text ++ trailing) ∧
          piece.token.position =
            Position.start.after (before ++ earlier.flatMap Piece.text ++ piece.gap) := by
  -- Each token adds its piece to the bytes before, so these are general in the induction.
  fun_induction scanAll c generalizing tokens before with
  | case1 c e c' hscan => cases h
  | case2 c t c' hscan hend =>
    obtain rfl : [t] = tokens := by simpa using h
    rcases scan_spec hscan with ⟨rfl, hlayout⟩ | ⟨piece, rfl, -, hfits, -⟩
    · refine ⟨[], c.rest, ?_, rfl, hlayout, fun earlier piece later h => by simp at h⟩
      rw [hplace, Position.after_append]
      rfl
    · exact absurd hend hfits.spelling.kind_ne
  | case3 c t c' hscan hend hlt rest last hrest ih =>
    cases rest with
    | error e => cases h
    | ok ts =>
      obtain rfl : t :: ts = tokens := Except.ok.inj h
      rcases scan_spec hscan with ⟨rfl, -⟩ | ⟨piece, rfl, hbytes, hfits, hplace', hplace''⟩
      · exact absurd rfl hend
      · rw [hplace] at hplace' hplace''
        rw [← Position.after_append] at hplace' hplace''
        obtain ⟨pieces, trailing, rfl, hrest', hlayout, hall⟩ := ih (by rw [hrest]) _ hplace''
        refine ⟨piece :: pieces, trailing, ?_, ?_, hlayout, ?_⟩
        · rw [hbytes, List.map_cons, List.cons_append, List.append_assoc]
        · rw [hbytes, hrest', List.flatMap_cons, List.append_assoc]
        · -- A piece is the one just read, or it is one of the pieces after it.
          intro earlier inner later hpieces
          rcases List.cons_eq_append_iff.mp hpieces with ⟨rfl, hhead⟩ | ⟨earlier, rfl, htail⟩
          · obtain ⟨rfl, rfl⟩ := List.cons.inj hhead
            rw [List.flatMap_nil, List.append_nil, ← hrest']
            exact ⟨hfits, hplace'⟩
          · obtain ⟨hinner, hposition⟩ := hall earlier inner later htail
            refine ⟨hinner, ?_⟩
            rw [hposition, List.flatMap_cons, ← List.append_assoc before]

end Cursor

/-- The `pieces` and the `trailing` layout are a cut of the program `source` into its `tokens`: one
piece for each token but the end marker, whose place is `last`. -/
structure IsCut (source : Text) (tokens : List Token) (pieces : List Piece) (trailing : Text)
    (last : Position) : Prop where
  /-- The pieces have the tokens in order, and then comes one end marker. -/
  tokens_eq : tokens = pieces.map Piece.token ++ [⟨.endOfInput, [], last⟩]
  /-- The program is the pieces and the last layout. -/
  source_eq : source = pieces.flatMap Piece.text ++ trailing
  /-- Layout follows the last piece. -/
  layout : EndLayout trailing
  /-- A piece is layout and the bytes of its token, of which there are some. -/
  fits : ∀ earlier piece later, pieces = earlier ++ piece :: later →
    piece.Fits (later.flatMap Piece.text ++ trailing) ∧ piece.span ≠ [] ∧
      piece.token.kind ≠ .endOfInput
  /-- The place of a token is found by counting the bytes in front of its own. -/
  place : ∀ earlier piece later, pieces = earlier ++ piece :: later →
    piece.token.position.Counts (earlier.flatMap Piece.text ++ piece.gap)
  /-- The words of the place of the end marker are the counts for the whole program. -/
  last_eq : last = ⟨.ofNat (1 + source.count Byte.newline), .ofNat (Text.column source)⟩
  /-- They are exact, unless the program is as many line feeds as it can have bytes. -/
  last_exact : last.Counts source ∨ source = List.replicate (UInt32.size - 1) Byte.newline

/-- The tokens that `Token.ofSource` reads from a program below `2^32` bytes cut it into pieces
(`IsCut`): reading loses no byte, invents no token, and misplaces none. -/
theorem Token.ofSource_isCut {source : Text} {tokens : List Token}
    (hlength : source.length < UInt32.size) (h : Token.ofSource source = .ok tokens) :
    ∃ pieces trailing last, IsCut source tokens pieces trailing last := by
  obtain ⟨pieces, trailing, htokens, hsource, htrailing, hall⟩ :=
    Cursor.scanAll_spec h [] rfl
  refine ⟨pieces, trailing, _, htokens, hsource, htrailing, ?_, ?_, Position.start_after _,
    Position.counts_end hlength⟩
  · intro earlier piece later hpieces
    obtain ⟨hfits, -⟩ := hall earlier piece later hpieces
    exact ⟨hfits, hfits.spelling.span_ne_nil, hfits.spelling.kind_ne⟩
  · intro earlier piece later hpieces
    obtain ⟨hfits, hplace⟩ := hall earlier piece later hpieces
    rw [hplace, List.nil_append]
    apply Position.counts_before
    -- The bytes of the token itself come after the place, so the word can hold the counts.
    have hspan : 0 < piece.span.length := List.length_pos_iff.mpr hfits.spelling.span_ne_nil
    have hbytes : source = earlier.flatMap Piece.text ++ piece.gap ++
        (piece.span ++ later.flatMap Piece.text ++ trailing) := by
      rw [show source = pieces.flatMap Piece.text ++ trailing from hsource, hpieces]
      simp [Piece.text]
    rw [hbytes] at hlength
    simp only [List.length_append] at hlength ⊢
    omega

/-- A program over three lines. Its first comment hides a word, its string literal holds a quote and
two line feeds, its second point starts another number, and no line feed ends its last comment. -/
def threeLines : Text := ascii "Set color # red\n \"a\\\"\n\\n\" 1.5.2, # end"

/-- The tokens of the program `threeLines`, each with its place: the string literal spans two lines.
-/
def tokensOfThreeLines : List Token :=
  [⟨.keyword, ascii "set", ⟨1, 0⟩⟩, ⟨.keyword, ascii "color", ⟨1, 4⟩⟩,
    ⟨.string, ascii "a\"\n\n", ⟨2, 1⟩⟩, ⟨.number, ascii "1.5", ⟨3, 4⟩⟩,
    ⟨.number, ascii ".2", ⟨3, 7⟩⟩, ⟨.comma, ascii ",", ⟨3, 9⟩⟩, ⟨.endOfInput, [], ⟨3, 16⟩⟩]

/-- The program `threeLines` is read as `tokensOfThreeLines`, and they cut it into pieces. -/
theorem Token.isCut_threeLines :
    threeLines.length < UInt32.size ∧ Token.ofSource threeLines = .ok tokensOfThreeLines ∧
      ∃ pieces trailing last, IsCut threeLines tokensOfThreeLines pieces trailing last := by
  have hlength : threeLines.length < UInt32.size := by decide
  have hread : Token.ofSource threeLines = .ok tokensOfThreeLines := by decide +kernel
  exact ⟨hlength, hread, Token.ofSource_isCut hlength hread⟩

end Sketch
