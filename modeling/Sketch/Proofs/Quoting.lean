import Mathlib.Data.List.Forall2
import Sketch.Proofs.Writing

/-!
# String literals give back what they spell

A content has many spellings as a string literal, since most bytes may stand as they are or behind a
backslash (`Escaped`). `Token.literals_give_back` shows that every content has one, that every
spelling is read as its content and nothing else, whatever follows it, and that all string tokens
come from such literals. So every text can be the name of a color.

A literal is a piece that fits in front of anything, because it ends at its quote and not at the
byte behind it. What follows is read as it is on its own (`Cursor.scanAll_movedPast`, by induction
over its tokens): a token does not depend on the place where it starts, and that place moves with
the bytes in front of it (`MovedPast`).
-/

namespace Sketch

/-- A token of a text, and the same token with more in front of that text: the bytes before it are
those that were before it, behind what is in front. -/
inductive MovedPast (front source : Text) : Token → Token → Prop where
  | intro {kind : TokenKind} {text before : Text} : before <+: source →
      MovedPast front source ⟨kind, text, Position.start.after before⟩
        ⟨kind, text, Position.start.after (front ++ before)⟩

/-- The bytes of a string literal with the bytes `body` between its quotes. -/
def quotedBy (body : Text) : Text := Byte.quote :: body ++ [Byte.quote]

/-- From a place further on, behind `front`, the cursor `c` reads the tokens that it reads here,
each `MovedPast` that `front`. The bytes `before` the cursor are part of `source`. -/
theorem Cursor.scanAll_movedPast (front before : Text) {source : Text} {c : Cursor}
    {ts : List Token} (hsource : source = before ++ c.rest)
    (hplace : c.position = Position.start.after before) (h : c.scanAll.1 = .ok ts) :
    ∃ ts', (Cursor.mk c.rest (Position.start.after (front ++ before))).scanAll.1 = .ok ts' ∧
      List.Forall₂ (MovedPast front source) ts ts' := by
  -- Each token adds its bytes to those before, so these are general in the induction.
  induction c using scanAll.induct generalizing before ts with
  | case1 c e c' hscan =>
    rw [scanAll_of_error hscan] at h
    cases h
  | case2 c t c' hscan hend =>
    rw [scanAll_of_endOfInput hscan hend] at h
    obtain rfl := Except.ok.inj h
    rcases scan_spec hscan with ⟨rfl, hlayout⟩ | ⟨piece, rfl, -, hfits, -⟩
    · have hmoved : (Cursor.mk c.rest (Position.start.after (front ++ before))).scan =
          (.ok ⟨.endOfInput, [], Position.start.after (front ++ source)⟩,
            ⟨[], Position.start.after (front ++ source)⟩) := by
        have hmarker := scan_of_endLayout (c := ⟨c.rest, Position.start.after (front ++ before)⟩)
          hlayout
        rwa [← Position.after_append, List.append_assoc, ← hsource] at hmarker
      refine ⟨_, congrArg Prod.fst (scanAll_of_endOfInput hmoved rfl), .cons ?_ .nil⟩
      rw [hplace, ← Position.after_append, ← hsource]
      exact .intro (List.prefix_refl source)
    · exact absurd hend hfits.spelling.kind_ne
  | case3 c t c' hscan hend _ _ _ _ ih =>
    rw [scanAll_of_token hscan hend] at h
    obtain ⟨ts, hts, rfl⟩ := Program.map_eq_ok_iff.mp h
    rcases scan_spec hscan with ⟨rfl, -⟩ | ⟨piece, rfl, hbytes, hfits, htoken, hnext⟩
    · exact absurd rfl hend
    · have hsource' : source = before ++ piece.text ++ c'.rest := by
        rw [hsource, hbytes, List.append_assoc]
      rw [hplace, ← Position.after_append] at htoken hnext
      obtain ⟨ts', hts', hall⟩ := ih _ hsource' hnext hts
      have hmoved := scan_of_fits hfits (Position.start.after (front ++ before))
      rw [← hbytes, ← Position.after_append, ← Position.after_append, List.append_assoc,
        List.append_assoc] at hmoved
      -- The token stands behind the gap of its piece, which is part of the text.
      have hprefix : before ++ piece.gap <+: source := by
        rw [hsource', Piece.text, ← List.append_assoc, List.append_assoc (before ++ piece.gap)]
        exact List.prefix_append _ _
      have hpast : MovedPast front source piece.token
          ⟨piece.token.kind, piece.token.text,
            Position.start.after (front ++ (before ++ piece.gap))⟩ := by
        obtain ⟨gap, span, kind, text, position⟩ := piece
        obtain rfl : position = Position.start.after (before ++ gap) := htoken
        exact .intro hprefix
      refine ⟨_, ?_, .cons hpast hall⟩
      rw [scanAll_of_token hmoved hend, hts']
      rfl

namespace Token

/-- A literal with the `body` is the first token of a text that starts with it, and then come the
tokens `ts` of the `rest`, moved past the literal. -/
theorem ofSource_quotedBy_append {body content rest : Text} {ts : List Token}
    (h : Escaped body content) (hrest : ofSource rest = .ok ts) :
    ∃ ts', ofSource (quotedBy body ++ rest) = .ok (⟨.string, content, .start⟩ :: ts') ∧
      List.Forall₂ (MovedPast (quotedBy body) rest) ts ts' := by
  obtain ⟨ts', hts', hall⟩ :=
    Cursor.scanAll_movedPast (quotedBy body) [] rfl rfl hrest
  let piece : Piece := ⟨[], quotedBy body, ⟨.string, content, .start⟩⟩
  have hfits : piece.Fits rest := ⟨.nil, .string h, fun _ _ => trivial⟩
  have hscan : (Cursor.ofSource (quotedBy body ++ rest)).scan =
      (.ok ⟨.string, content, .start⟩, ⟨rest, Position.start.after (quotedBy body)⟩) :=
    Cursor.scan_of_fits hfits .start
  refine ⟨ts', ?_, hall⟩
  rw [ofSource, Cursor.scanAll_of_token hscan TokenKind.noConfusion]
  rw [List.append_nil] at hts'
  exact congrArg (Except.map _) hts'

/-- A string token `t` of a program comes from a literal at its place, whose `body` spells the text
of `t`. -/
theorem exists_quotedBy_of_mem {source : Text} {ts : List Token} {t : Token}
    (h : ofSource source = .ok ts) (ht : t ∈ ts) (hkind : t.kind = .string) :
    ∃ before body after, source = before ++ quotedBy body ++ after ∧ Escaped body t.text ∧
      t.position = Position.start.after before := by
  obtain ⟨pieces, trailing, rfl, hsource, -, hall⟩ := Cursor.scanAll_spec h [] rfl
  rcases List.mem_append.mp ht with hpiece | hmarker
  · obtain ⟨piece, hmem, rfl⟩ := List.mem_map.mp hpiece
    obtain ⟨earlier, later, rfl⟩ := List.append_of_mem hmem
    obtain ⟨⟨-, hspelling, -⟩, hplace⟩ := hall earlier piece later rfl
    rw [hkind] at hspelling
    have hbytes : source = earlier.flatMap Piece.text ++ piece.gap ++ piece.span ++
        (later.flatMap Piece.text ++ trailing) := by
      refine hsource.trans ?_
      simp [Piece.text]
    generalize hspan : piece.span = span at hspelling hbytes
    cases hspelling with
    | string h => exact ⟨_, _, _, hbytes, h, hplace⟩
  · -- The end marker is no string token.
    rw [List.mem_singleton.mp hmarker] at hkind
    cases hkind

/-- The tokens of a program that sets the color to the word `w`, with the places that
`ascii "set color "` gives them. -/
def ofSetColor (w : Word) : List Token :=
  [⟨.keyword, ascii "set", ⟨1, 0⟩⟩, ⟨.keyword, ascii "color", ⟨1, 4⟩⟩, w.token ⟨1, 10⟩]

/-- A program that sets the color to a word `w` is read as its three words, up to the end `p` of the
program. -/
theorem reads_set_color (w : Word) :
    ∃ p, (Cursor.ofSource (ascii "set color " ++ w.span)).Reads (ofSetColor w) ⟨[], p⟩ := by
  let set : Word := .reserved (ascii "set") (by decide)
  let words : List Word := [.reserved (ascii "color") (by decide), w]
  let piece : Piece := ⟨[], set.span, set.token .start⟩
  -- The first word has no blank in front, and the two after it are words with a blank each.
  have hends : ∀ b ∈ (written words).head?, set.kind.EndsBefore b set.span := by
    intro b hb
    obtain rfl := Option.some.inj hb
    exact TokenKind.endsBefore_blank _ _
  have hfits : piece.Fits (written words) := ⟨.nil, set.spelling, hends⟩
  have hwords : ascii "set color " =
      ascii "set" ++ (Byte.blank :: ascii "color" ++ [Byte.blank]) := by
    decide
  have hsource : ascii "set color " ++ w.span = piece.text ++ written words := by
    rw [hwords]
    simp [words, piece, set, written, Word.reserved, Piece.text]
  have hreads := Cursor.reads_written (Position.start.after piece.text) words
  rw [hsource]
  exact ⟨_, .cons (Cursor.scan_of_fits hfits .start) set.spelling.kind_ne hreads⟩

/-- The tokens of a program that sets the color to a word `w` are `ofSetColor w` and the end marker.
-/
theorem ofSource_set_color (w : Word) :
    ∃ p, ofSource (ascii "set color " ++ w.span) =
      .ok (ofSetColor w ++ [⟨.endOfInput, [], p⟩]) := by
  obtain ⟨p, hreads⟩ := reads_set_color w
  refine ⟨p, ?_⟩
  rw [ofSource, hreads.scanAll,
    Cursor.scanAll_of_endOfInput (Cursor.scan_of_endLayout (.closed .nil)) rfl]
  rfl

/-- A program that sets the color to a word `w` has one command if `w` is a color name or a literal,
whether or not the end marker is read. -/
theorem read_set_color_word (w : Word) (hkind : w.kind = .colorName ∨ w.kind = .string)
    (marked : Bool) :
    Program.read marked (ascii "set color " ++ w.span) = .ok [⟨.setColor w.text, ⟨1, 0⟩⟩] := by
  obtain ⟨p, htokens⟩ := ofSource_set_color w
  have halike : Text.alike (ascii "color") (ascii "color") := by decide
  have hstatement : Statement (ofSetColor w) ⟨.setColor w.text, ⟨1, 0⟩⟩ :=
    .setColor ⟨rfl, rfl⟩ halike hkind
  have hend : ∀ t ∈ ofSetColor w, t.kind ≠ .endOfInput := by
    simp [ofSetColor, Word.token, w.spelling.kind_ne]
  have hflat : [ofSetColor w].flatten = Program.beforeEnd (ofSetColor w) :=
    (Program.beforeEnd_eq_self hend).symm
  rw [Program.read_eq_ok_iff, (Program.read_of_ofSource htokens).1, Program.mapError_eq_ok_iff]
  exact Program.statements_complete hflat (.cons hstatement .nil) _

/-- A program that sets the color to a literal has one command, with the `content` that its `body`
spells. -/
theorem read_set_color {body content : Text} (h : Escaped body content) (marked : Bool) :
    Program.read marked (ascii "set color " ++ quotedBy body) =
      .ok [⟨.setColor content, ⟨1, 0⟩⟩] :=
  read_set_color_word ⟨.string, content, quotedBy body, .string h⟩ (.inr rfl) marked

/-- Every content has a literal. Every literal of a content is read as a string token with it at the
start, followed by the tokens of what follows the literal, moved past it, and a program that sets
the color to the literal has one command with the content. Every string token comes from a literal
of its text at its place. -/
theorem literals_give_back :
    (∀ content, ∃ body, Escaped body content) ∧
    (∀ body content, Escaped body content →
      (∀ rest ts, ofSource rest = .ok ts →
        ∃ ts', ofSource (quotedBy body ++ rest) = .ok (⟨.string, content, ⟨1, 0⟩⟩ :: ts') ∧
          List.Forall₂ (MovedPast (quotedBy body) rest) ts ts') ∧
      ∀ marked, Program.read marked (ascii "set color " ++ quotedBy body) =
        .ok [⟨.setColor content, ⟨1, 0⟩⟩]) ∧
    ∀ source ts t, ofSource source = .ok ts → t ∈ ts → t.kind = .string →
      ∃ before body after, source = before ++ quotedBy body ++ after ∧ Escaped body t.text ∧
        t.position = Position.start.after before := by
  refine ⟨fun content => ⟨escape content, escaped_escape content⟩, ?_, ?_⟩
  · intro body content h
    exact ⟨fun rest ts hrest => ofSource_quotedBy_append h hrest, read_set_color h⟩
  · intro source ts t h ht hkind
    exact exists_quotedBy_of_mem h ht hkind

/-- A literal with an escaped quote, a number sign, a line feed both escaped and as it is, an
escaped backslash and a null byte, in front of a number. -/
theorem literals_give_back_marks :
    let body := ascii "\\\"#\\n\n\\\\" ++ [0]
    let content := ascii "\"#\n\n\\" ++ [0]
    let number : List Token := [⟨.number, ascii "1", ⟨1, 1⟩⟩, ⟨.endOfInput, [], ⟨1, 2⟩⟩]
    Escaped body content ∧ ofSource (ascii " 1") = .ok number ∧
      (∃ ts', ofSource (quotedBy body ++ ascii " 1") =
          .ok (⟨.string, content, ⟨1, 0⟩⟩ :: ts') ∧
        List.Forall₂ (MovedPast (quotedBy body) (ascii " 1")) number ts') ∧
      Program.read false (ascii "set color " ++ quotedBy body) =
        .ok [⟨.setColor content, ⟨1, 0⟩⟩] ∧
      ∃ before inner after, quotedBy body = before ++ quotedBy inner ++ after ∧
        Escaped inner content ∧ (⟨1, 0⟩ : Position) = Position.start.after before := by
  intro body content number
  -- The newline is once spelled `\n` and once stands for itself.
  have hescaped : Escaped body content :=
    .itself (by decide) (by decide) (.plain (by decide) (by decide) (.newline
      (.plain (by decide) (by decide) (.itself (by decide) (by decide)
        (.plain (by decide) (by decide) .nil)))))
  have hnumber : ofSource (ascii " 1") = .ok number := by decide +kernel
  have hliteral : ofSource (quotedBy body) =
      .ok [⟨.string, content, ⟨1, 0⟩⟩, ⟨.endOfInput, [], ⟨2, 4⟩⟩] := by
    decide +kernel
  have hsound := literals_give_back.2.2 _ _ ⟨.string, content, ⟨1, 0⟩⟩ hliteral (by simp) rfl
  have hread := literals_give_back.2.1 body content hescaped
  exact ⟨hescaped, hnumber, hread.1 _ _ hnumber, hread.2 false, hsound⟩

end Token

end Sketch
