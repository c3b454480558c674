import Sketch.Proofs.Contexts

/-!
# Comments, white space and letter case do not matter

What a byte may be swapped for depends on what it stands in (`Context.Swaps`): in a comment any byte
but a line feed stands for any other, and in code a letter stands for its other case and white space
that ends no line for other such white space. In a string literal every byte stands for itself.

`Session.run_reformatted` shows that two programs of one length whose bytes may be swapped at every
offset have the same tokens, with the same places, or the same lexical error, and so they are read
and run alike.

The bytes of the two programs pair up along the contexts (`Context.Pairs`). So do the pieces that
reading cuts them into: a layout pairs up with a layout (`Context.Pairs.layout`) and the bytes of a
token with bytes that spell it as well (`Context.Pairs.spelling`). So two cursors that stand
alongside read the same token and stay alongside (`Cursor.Alongside.scan_ok`), and the rest is an
induction over the tokens.
-/

namespace Sketch

/-- In the context `c`, the byte `b` may be swapped for the byte `b'`: any byte of a comment, a
letter for the same letter, and white space for white space. Line feeds stay. -/
inductive Context.Swaps : Context → Byte → Byte → Prop where
  | same {c : Context} {b : Byte} : Swaps c b b
  | comment {b b' : Byte} : b ≠ Byte.newline → b' ≠ Byte.newline → Swaps comment b b'
  /-- The same letter in either case. -/
  | letter {b b' : Byte} : b.isLetter → b'.lower = b.lower → Swaps code b b'
  | space {b b' : Byte} : b.isSpace → b ≠ Byte.newline → b'.isSpace → b' ≠ Byte.newline →
      Swaps code b b'

/-- The second program is the first one in other comments, white space and letter case, each byte in
the place of one. -/
structure Reformatted (source source' : Text) : Prop where
  length_eq : source'.length = source.length
  /-- What a byte stands in is found from the bytes of the first program in front of it. -/
  swaps : ∀ i (h : i < source.length) (h' : i < source'.length),
    (Context.code.after (source.take i)).Swaps source[i] source'[i]

instance (c : Context) (b b' : Byte) : Decidable (c.Swaps b b') :=
  decidable_of_iff
    (b' = b ∨ (c = .comment ∧ b ≠ Byte.newline ∧ b' ≠ Byte.newline) ∨
      (c = .code ∧ b.isLetter ∧ b'.lower = b.lower) ∨
      (c = .code ∧ b.isSpace ∧ b ≠ Byte.newline ∧ b'.isSpace ∧ b' ≠ Byte.newline)) <| by
    constructor
    · rintro (rfl | ⟨rfl, hb, hb'⟩ | ⟨rfl, hb, hb'⟩ | ⟨rfl, hb, hline, hb', hline'⟩)
      · exact .same
      · exact .comment hb hb'
      · exact .letter hb hb'
      · exact .space hb hline hb' hline'
    · rintro (_ | ⟨hb, hb'⟩ | ⟨hb, hb'⟩ | ⟨hb, hline, hb', hline'⟩)
      · exact .inl rfl
      · exact .inr (.inl ⟨rfl, hb, hb'⟩)
      · exact .inr (.inr (.inl ⟨rfl, hb, hb'⟩))
      · exact .inr (.inr (.inr ⟨rfl, hb, hline, hb', hline'⟩))

instance (source source' : Text) : Decidable (Reformatted source source') :=
  decidable_of_iff
    (source'.length = source.length ∧ ∀ i, ∀ h : i < source.length, ∀ h' : i < source'.length,
      (Context.code.after (source.take i)).Swaps source[i] source'[i])
    ⟨fun ⟨hlength, hswaps⟩ => ⟨hlength, hswaps⟩, fun h => ⟨h.length_eq, h.swaps⟩⟩

namespace Context

/-! ## Bytes that may be swapped -/

section Swaps

variable {c : Context} {b b' : Byte}

/-- A swap goes in both directions, from `b` to `b'` and back. -/
theorem Swaps.symm (h : c.Swaps b b') : c.Swaps b' b := by
  cases h with
  | same => exact .same
  | comment hb hb' => exact .comment hb' hb
  | letter hb hlower => exact .letter (Byte.isLetter_of_lower_eq hb hlower) hlower.symm
  | space hb hline hb' hline' => exact .space hb' hline' hb hline

/-- A byte in a literal, escaped or not, is kept as it is. -/
theorem Swaps.eq_of_inLiteral (h : c.Swaps b b') (hc : c.inLiteral) : b' = b := by
  cases h with
  | same => rfl
  | comment | letter | space => cases hc

/-- In code only letters and white space are swapped, and every other byte is kept. -/
theorem Swaps.eq_of_code (h : code.Swaps b b') (hspace : b.isSpace = false)
    (hword : b.isWordStart = false) : b' = b := by
  cases h with
  | same => rfl
  | letter hb => simp [Byte.isWordStart, hb] at hword
  | space hb => simp [hb] at hspace

/-- In code no byte becomes or ceases to be a given `mark`, which is neither white space nor a
letter. -/
theorem Swaps.eq_mark_iff (h : code.Swaps b b') {mark : Byte} (hspace : mark.isSpace = false)
    (hword : mark.isWordStart = false) : b' = mark ↔ b = mark := by
  constructor
  · rintro rfl
    exact h.symm.eq_of_code hspace hword
  · rintro rfl
    exact h.eq_of_code hspace hword

/-- No byte becomes or ceases to be a line feed, so no line starts or ends elsewhere. -/
theorem Swaps.newline_iff (h : c.Swaps b b') : b' = Byte.newline ↔ b = Byte.newline := by
  have hletter : ∀ b : Byte, b.isLetter → b ≠ Byte.newline := by
    rintro b hb rfl
    exact absurd hb (by decide)
  cases h with
  | same => rfl
  | comment hb hb' => simp [hb, hb']
  | letter hb hlower => simp [hletter b hb, hletter b' (Byte.isLetter_of_lower_eq hb hlower)]
  | space _ hline _ hline' => simp [hline, hline']

/-- In code a byte keeps its class: white space, digit or start of a word. -/
theorem Swaps.class_eq (h : code.Swaps b b') :
    b'.isSpace = b.isSpace ∧ b'.isDigit = b.isDigit ∧ b'.isWordStart = b.isWordStart := by
  cases h with
  | same => exact ⟨rfl, rfl, rfl⟩
  | letter hb hlower =>
    have hstart : b.isWordStart := by simp [Byte.isWordStart, hb]
    have hstart' : b'.isWordStart := by
      simp [Byte.isWordStart, Byte.isLetter_of_lower_eq hb hlower]
    obtain ⟨hspace, hdigit⟩ := b.classes.2.2 hstart
    obtain ⟨hspace', hdigit'⟩ := b'.classes.2.2 hstart'
    exact ⟨hspace'.trans hspace.symm, hdigit'.trans hdigit.symm, hstart'.trans hstart.symm⟩
  | space hb _ hb' _ =>
    obtain ⟨hdigit, hstart⟩ := b.classes.1 hb
    obtain ⟨hdigit', hstart'⟩ := b'.classes.1 hb'
    exact ⟨hb'.trans hb.symm, hdigit'.trans hdigit.symm, hstart'.trans hstart.symm⟩

/-- In code a byte that goes on with a word does so after a swap. -/
theorem Swaps.isWordByte_eq (h : code.Swaps b b') : b'.isWordByte = b.isWordByte := by
  obtain ⟨-, hdigit, hstart⟩ := h.class_eq
  rw [Byte.isWordByte, hstart, hdigit, Byte.isWordByte]

/-- In code a byte that is no white space keeps its small form `Byte.lower`. -/
theorem Swaps.lower_eq (h : code.Swaps b b') (hspace : b.isSpace = false) : b'.lower = b.lower := by
  cases h with
  | same => rfl
  | letter _ hlower => exact hlower
  | space hb => simp [hb] at hspace

/-- The bytes after a swap stand in what they stood in before. -/
theorem Swaps.next_eq (h : c.Swaps b b') : c.next b' = c.next b := by
  cases c with
  | code =>
    have hquote : b' = Byte.quote ↔ b = Byte.quote := h.eq_mark_iff (by decide) (by decide)
    have hhash : b' = Byte.hash ↔ b = Byte.hash := h.eq_mark_iff (by decide) (by decide)
    simp only [next, beq_iff_eq, hquote, hhash]
  | comment => simp only [next, beq_iff_eq, h.newline_iff]
  | literal | escape => rw [h.eq_of_inLiteral rfl]

end Swaps

/-! ## Texts that pair up -/

/-- The bytes of two texts pair up from the context on: each may be swapped for its partner where it
stands. -/
inductive Pairs : Context → Text → Text → Prop where
  | nil {c : Context} : Pairs c [] []
  | cons {c : Context} {b b' : Byte} {t t' : Text} : c.Swaps b b' → Pairs (c.next b) t t' →
      Pairs c (b :: t) (b' :: t')

variable {c : Context} {s t u t' : Text}

/-- If the bytes of `t` pair up with those of `t'`, so do those of `t'` with those of `t`. -/
theorem Pairs.symm (h : c.Pairs t t') : c.Pairs t' t := by
  induction h with
  | nil => exact .nil
  | cons hb _ ih => exact .cons hb.symm (hb.next_eq ▸ ih)

/-- What pairs up with two pieces `s` and `t` are two pieces, of which the second starts where `s`
leads. -/
theorem Pairs.of_append (h : c.Pairs (s ++ t) u) :
    ∃ s' t', u = s' ++ t' ∧ c.Pairs s s' ∧ (c.after s).Pairs t t' := by
  induction s generalizing c u with
  | nil => exact ⟨[], u, rfl, .nil, h⟩
  | cons b s ih =>
    obtain _ | ⟨hb, hrest⟩ := h
    obtain ⟨s', t', rfl, hs, ht⟩ := ih hrest
    exact ⟨_ :: s', t', rfl, .cons hb hs, ht⟩

/-- Texts that pair up lead to the same place, as they have the same line feeds. -/
theorem Pairs.place_eq (h : c.Pairs t t') (p : Position) : p.after t' = p.after t := by
  induction h generalizing p with
  | nil => rfl
  | cons hb _ ih =>
    rw [Position.after_cons, Position.after_cons, ih, Position.next, Position.next]
    simp only [beq_iff_eq, hb.newline_iff]

/-- What a swap keeps of a byte (`hf`), a text keeps of all its bytes if none of them leads out of
the context (`hstay`). -/
theorem Pairs.map_eq {α : Type} {f : Byte → α} (h : c.Pairs t t') (hstay : ∀ b ∈ t, c.next b = c)
    (hf : ∀ b ∈ t, ∀ b', c.Swaps b b' → f b' = f b) : t'.map f = t.map f := by
  induction t generalizing t' with
  | nil =>
    cases h
    rfl
  | cons b t ih =>
    obtain ⟨hb, ht⟩ := List.forall_mem_cons.mp hstay
    obtain ⟨hfb, hft⟩ := List.forall_mem_cons.mp hf
    obtain _ | ⟨hswap, hrest⟩ := h
    rw [List.map_cons, List.map_cons, hfb _ hswap, ih (hb ▸ hrest) ht hft]

/-- A class `p` that a swap keeps, and that has all bytes of `t`, has all bytes of `t'`, too. -/
theorem Pairs.forall_mem {p : Byte → Bool} (h : c.Pairs t t') (hstay : ∀ b ∈ t, c.next b = c)
    (hp : ∀ b b', c.Swaps b b' → p b' = p b) (hall : ∀ b ∈ t, p b) : ∀ b ∈ t', p b := by
  have hmap := h.map_eq hstay fun b _ b' => hp b b'
  have hmem : ∀ x ∈ t'.map p, x = true := hmap ▸ List.forall_mem_map.mpr hall
  exact List.forall_mem_map.mp hmem

/-- The bytes of two texts of one length pair up if they may be swapped at every offset. -/
theorem pairs_of_swaps (hlength : t'.length = t.length)
    (h : ∀ i (hi : i < t.length) (hi' : i < t'.length),
      (c.after (t.take i)).Swaps t[i] t'[i]) : c.Pairs t t' := by
  -- The offsets behind the first byte count from its next context, so the context is general.
  induction t generalizing c t' with
  | nil =>
    obtain rfl := List.eq_nil_of_length_eq_zero hlength
    exact .nil
  | cons b t ih =>
    obtain ⟨b', t', rfl⟩ := List.exists_cons_of_length_eq_add_one hlength
    refine .cons (h 0 (by simp) (by simp)) (ih (by simpa using hlength) fun i hi hi' => ?_)
    exact h (i + 1) (by simpa using hi) (by simpa using hi')

/-! ## Layout and tokens pair up with such -/

/-- The `body` of a comment pairs up with the body of a comment: neither has a line feed. -/
theorem Pairs.newline_notMem {body body' : Text} (h : comment.Pairs body body')
    (hbody : Byte.newline ∉ body) : Byte.newline ∉ body' := by
  have hlines : ∀ b b', comment.Swaps b b' → (b' != Byte.newline) = (b != Byte.newline) := by
    intro b b' hb
    rw [Bool.eq_iff_iff, bne_iff_ne, bne_iff_ne, ne_eq, hb.newline_iff]
  have hall := h.forall_mem (next_comment hbody) hlines fun b hb =>
    bne_iff_ne.mpr (ne_of_mem_of_not_mem hb hbody)
  exact fun hline => bne_iff_ne.mp (hall _ hline) rfl

/-- Layout `t` pairs up with layout, comment by comment. -/
theorem Pairs.layout (h : code.Pairs t t') (hlayout : Layout t) : Layout t' := by
  induction hlayout generalizing t' with
  | nil =>
    cases h
    exact .nil
  | space hspace _ ih =>
    obtain _ | ⟨hb, hrest⟩ := h
    rw [next_space hspace] at hrest
    exact .space (hb.class_eq.1.trans hspace) (ih hrest)
  | @comment body t hbody _ ih =>
    obtain ⟨front, behind, rfl, hfront, hbehind⟩ := h.of_append
    obtain _ | ⟨hhash, hcomment⟩ := hfront
    obtain rfl := hhash.eq_of_code rfl rfl
    -- The line feed that ends the comment is kept, so the other text has a comment there, too.
    have hnext : code.after (Byte.hash :: body) = .comment := after_eq_self (next_comment hbody)
    rw [hnext] at hbehind
    obtain _ | ⟨hline, hrest⟩ := hbehind
    obtain rfl := hline.newline_iff.mpr rfl
    exact .comment (hcomment.newline_notMem hbody) (ih hrest)

/-- What a program can end with pairs up with what a program can end with, also in a last comment.
-/
theorem Pairs.endLayout (h : code.Pairs t t') (hlayout : EndLayout t) : EndLayout t' := by
  cases hlayout with
  | closed hlayout => exact .closed (h.layout hlayout)
  | @pending t body hlayout hbody =>
    obtain ⟨front, behind, rfl, hfront, hbehind⟩ := h.of_append
    rw [after_layout hlayout] at hbehind
    obtain _ | ⟨hhash, hcomment⟩ := hbehind
    obtain rfl := hhash.eq_of_code rfl rfl
    exact .pending (hfront.layout hlayout) (hcomment.newline_notMem hbody)

/-- White space pairs up with white space. -/
theorem Pairs.isSpace (h : code.Pairs t t') (hspace : ∀ b ∈ t, b.isSpace) :
    ∀ b ∈ t', b.isSpace :=
  h.forall_mem (fun b hb => next_space (hspace b hb)) (fun _ _ hb => hb.class_eq.1) hspace

/-- A word pairs up with a word that has the same small letters, which are what is read of it. -/
theorem Pairs.word {span span' : Text} (h : code.Pairs span span') (hword : IsWord span) :
    IsWord span' ∧ Text.lower span' = Text.lower span := by
  have hstay := next_word hword
  have hspace : ∀ b ∈ span, b.isSpace = false := by
    intro b hb
    rcases Bool.or_eq_true_iff.mp (hword.isWordByte b hb) with hstart | hdigit
    · exact (b.classes.2.2 hstart).1
    · exact (b.classes.2.1 hdigit).1
  have hlower := h.map_eq hstay fun b hb b' hswap => hswap.lower_eq (hspace b hb)
  obtain ⟨hfirst, htail⟩ := hword
  obtain ⟨hnext, hrest⟩ := List.forall_mem_cons.mp hstay
  obtain _ | ⟨hb, htail'⟩ := h
  rw [hnext] at htail'
  refine ⟨.intro (hb.class_eq.2.2.trans hfirst) ?_, hlower⟩
  exact htail'.forall_mem hrest (fun _ _ hswap => hswap.isWordByte_eq) htail

/-- A numeral pairs up with itself, as it has no letters. -/
theorem Pairs.numeral {span span' : Text} (h : code.Pairs span span') (hnumeral : IsNumeral span) :
    span' = span := by
  have hsame : ∀ b ∈ span, ∀ b', code.Swaps b b' → id b' = id b := by
    intro b hb b' hswap
    rcases hnumeral.bytes b hb with hdigit | rfl
    · obtain ⟨hspace, hword⟩ := b.classes.2.1 hdigit
      exact hswap.eq_of_code hspace hword
    · exact hswap.eq_of_code rfl rfl
  simpa using h.map_eq (next_numeral hnumeral) hsame

/-- The `body` of a literal pairs up with itself, as nothing in a literal is swapped. -/
theorem Pairs.escaped {body body' content : Text} (h : literal.Pairs body body')
    (hbody : Escaped body content) : body' = body := by
  induction hbody generalizing body' with
  | nil =>
    cases h
    rfl
  | @plain b _ _ hquote hbackslash _ ih =>
    obtain _ | ⟨hb, hrest⟩ := h
    have hnext : literal.next b = literal := by simp [next, hquote, hbackslash]
    rw [hnext] at hrest
    rw [hb.eq_of_inLiteral rfl, ih hrest]
  | newline _ ih | tab _ ih | itself _ _ _ ih =>
    obtain _ | ⟨hbackslash, _ | ⟨hb, hrest⟩⟩ := h
    rw [hbackslash.eq_of_inLiteral rfl, hb.eq_of_inLiteral rfl, ih hrest]

/-- The bytes of a token pair up with bytes that spell it as well, and it ends in front of the same
bytes with them. -/
theorem Pairs.spelling {kind : TokenKind} {text span span' : Text} (h : code.Pairs span span')
    (hspelling : Spelling kind text span) :
    Spelling kind text span' ∧ ∀ b, kind.EndsBefore b span → kind.EndsBefore b span' := by
  -- All but words pair up with themselves, and where a word ends depends on the next byte alone.
  cases hspelling with
  | number hnumeral =>
    obtain rfl := h.numeral hnumeral
    exact ⟨.number hnumeral, fun _ => id⟩
  | keyword hword htable =>
    obtain ⟨hword', hlower⟩ := h.word hword
    rw [← hlower] at htable ⊢
    exact ⟨.keyword hword' htable, fun _ => id⟩
  | colorName hword hreserved hname =>
    obtain ⟨hword', hlower⟩ := h.word hword
    rw [← hlower] at hreserved hname ⊢
    exact ⟨.colorName hword' hreserved hname, fun _ => id⟩
  | @string body _ hbody =>
    obtain _ | ⟨hopen, hrest⟩ := h
    obtain ⟨body', last, rfl, hbody', hlast⟩ := hrest.of_append
    rw [next_quote] at hbody' hlast
    rw [after_escaped hbody] at hlast
    obtain _ | ⟨hclose, _ | _⟩ := hlast
    rw [hopen.eq_of_code rfl rfl, Pairs.escaped hbody' hbody, hclose.eq_of_inLiteral rfl]
    exact ⟨.string hbody, fun _ => id⟩
  | leftParen | rightParen | comma =>
    obtain _ | ⟨hb, _ | _⟩ := h
    obtain rfl := hb.eq_of_code rfl rfl
    exact ⟨by constructor, fun _ => id⟩
  | unknown hspace hnone hdigit hword =>
    obtain _ | ⟨hb, _ | _⟩ := h
    obtain rfl := hb.eq_of_code hspace hword
    exact ⟨.unknown hspace hnone hdigit hword, fun _ => id⟩

/-- A token that ends in front of a byte `b` ends in front of what `b` may be swapped for. -/
theorem Swaps.endsBefore {b b' : Byte} {kind : TokenKind} {span : Text} (h : code.Swaps b b')
    (hends : kind.EndsBefore b span) : kind.EndsBefore b' span := by
  obtain ⟨-, hdigit, -⟩ := h.class_eq
  cases kind with
  | number =>
    have hdot : b' = Byte.dot ↔ b = Byte.dot := h.eq_mark_iff rfl rfl
    exact ⟨hdigit.trans hends.1, fun hb => hends.2 (hdot.mp hb)⟩
  | keyword | colorName => exact h.isWordByte_eq.trans hends
  | unknown => exact fun hspan => hdigit.trans (hends hspan)
  | string | leftParen | rightParen | comma | endOfInput => trivial

end Context

/-! ## Two readings in step -/

/-- A `piece` that is well cut in front of `after` pairs up with one that is, and the token is the
same, at the same place. -/
theorem Piece.Fits.exists_paired {piece : Piece} {after t : Text} (h : piece.Fits after)
    (hpairs : Context.code.Pairs (piece.text ++ after) t) :
    ∃ (piece' : Piece) (after' : Text), t = piece'.text ++ after' ∧ piece'.token = piece.token ∧
      piece'.Fits after' ∧ Context.code.Pairs piece.gap piece'.gap ∧
      Context.code.Pairs piece.text piece'.text ∧ Context.code.Pairs after after' := by
  obtain ⟨gap, span, token⟩ := piece
  obtain ⟨hgap, hspelling, hends⟩ := h
  obtain ⟨front, after', rfl, hfront, hafter⟩ := hpairs.of_append
  obtain ⟨gap', span', rfl, hgap', hspan⟩ := hfront.of_append
  rw [Context.after_layout hgap] at hspan
  rw [Piece.text, Context.after_append, Context.after_layout hgap,
    Context.after_span hspelling] at hafter
  obtain ⟨hspelling', hends'⟩ := hspan.spelling hspelling
  refine ⟨⟨gap', span', token⟩, after', rfl, rfl, ⟨hgap'.layout hgap, hspelling', ?_⟩, hgap',
    hfront, hafter⟩
  -- The byte behind the token has a partner, in front of which the token ends as well.
  intro b' hb'
  obtain ⟨after', rfl⟩ := List.head?_eq_some_iff.mp hb'
  obtain _ | ⟨hb, -⟩ := hafter
  exact hb.endsBefore (hends' _ (hends _ rfl))

namespace Cursor

/-- The cursors `c` and `c'` are in code at the same place, in front of texts that pair up. -/
structure Alongside (c c' : Cursor) : Prop where
  position : c'.position = c.position
  rest : Context.code.Pairs c.rest c'.rest

variable {c c' d d' : Cursor}

/-- If `c'` is alongside `c`, then `c` is alongside `c'`. -/
theorem Alongside.symm (h : c.Alongside c') : c'.Alongside c := ⟨h.position.symm, h.rest.symm⟩

/-- Cursors alongside read the same token `t`, and stay alongside unless it is the end marker. -/
theorem Alongside.scan_ok {t : Token} (h : c.Alongside c') (hscan : c.scan = (.ok t, d)) :
    ∃ d', c'.scan = (.ok t, d') ∧ (t.kind ≠ .endOfInput → d.Alongside d') := by
  obtain ⟨rest, p⟩ := c
  obtain ⟨rest', p'⟩ := c'
  obtain ⟨rfl, hpairs⟩ := h
  rcases scan_spec hscan with ⟨rfl, hlayout⟩ | ⟨piece, rfl, rfl, hfits, hplace, hnext⟩
  · have hend := scan_of_endLayout (c := ⟨rest', p'⟩) (hpairs.endLayout hlayout)
    rw [hpairs.place_eq] at hend
    exact ⟨_, hend, fun hkind => absurd rfl hkind⟩
  · obtain ⟨piece', after', rfl, htoken, hfits', hgap, htext, hafter⟩ :=
      hfits.exists_paired hpairs
    have hread := scan_of_fits hfits' p'
    rw [htoken, hgap.place_eq, htext.place_eq, ← hplace, ← hnext] at hread
    exact ⟨_, hread, fun _ => ⟨rfl, hafter⟩⟩

/-- Cursors alongside find the same lexical error `e`, at the same end. -/
theorem Alongside.scan_error {e : LexicalError} (h : c.Alongside c')
    (hscan : c.scan = (.error e, d)) : c'.scan = (.error e, d) := by
  rcases hscan' : c'.scan with ⟨e' | t, d'⟩
  · obtain ⟨-, rfl, rfl⟩ := scan_error_spec hscan
    obtain ⟨-, rfl, rfl⟩ := scan_error_spec hscan'
    rw [h.position, h.rest.place_eq]
  · -- What one cursor reads, the other does, so neither of them succeeds alone.
    obtain ⟨d'', hok, -⟩ := h.symm.scan_ok hscan'
    rw [hscan] at hok
    cases hok

/-- Cursors alongside read the same tokens up to the end, or find the same error. -/
theorem Alongside.scanAll_eq (h : c.Alongside c') : c'.scanAll.1 = c.scanAll.1 := by
  induction c using scanAll.induct generalizing c' with
  | case1 c e d hscan => rw [scanAll_of_error hscan, scanAll_of_error (h.scan_error hscan)]
  | case2 c t d hscan hend =>
    obtain ⟨d', hscan', -⟩ := h.scan_ok hscan
    rw [scanAll_of_endOfInput hscan hend, scanAll_of_endOfInput hscan' hend]
  | case3 c t d hscan hend _ _ _ _ ih =>
    obtain ⟨d', hscan', hnext⟩ := h.scan_ok hscan
    rw [scanAll_of_token hscan hend, scanAll_of_token hscan' hend, ih (hnext hend)]

end Cursor

namespace Reformatted

variable {source source' : Text}

/-- The bytes of a reformatted program pair up with those of the program, from code on. -/
theorem pairs (h : Reformatted source source') : Context.code.Pairs source source' :=
  Context.pairs_of_swaps h.length_eq h.swaps

/-- A program stays blank or not blank when it is reformatted. -/
theorem all_isSpace_eq (h : Reformatted source source') :
    source'.all Byte.isSpace = source.all Byte.isSpace := by
  rw [Bool.eq_iff_iff, List.all_eq_true, List.all_eq_true]
  exact ⟨h.pairs.symm.isSpace, h.pairs.isSpace⟩

/-- A reformatted program has the same tokens at the same places, or the same lexical error. -/
theorem ofSource_eq (h : Reformatted source source') :
    Token.ofSource source' = Token.ofSource source :=
  Cursor.Alongside.scanAll_eq ⟨rfl, h.pairs⟩

end Reformatted

/-- Comments, white space and letter case do not matter: what is read of a program, how its run is
reported and what is drawn are the same in the program reformatted. -/
theorem Session.run_reformatted {source source' : Text} (h : Reformatted source source') :
    Token.ofSource source' = Token.ofSource source ∧
    (∀ marked, Program.read marked source' = Program.read marked source) ∧
    ∀ {σ : Type} [Surface σ] (s : Session σ), s.run source' = s.run source := by
  refine ⟨h.ofSource_eq, fun marked => ?_, fun s => ?_⟩
  · rw [Program.read, Program.read, h.ofSource_eq]
  · rw [Session.run, Session.run, h.ofSource_eq, h.all_isSpace_eq]

/-- Two ways to write three lines. The comments of the second one are full of quotes and number
signs, and its literal is that of the first one. -/
theorem Session.run_reformatted_lines :
    let source := ascii "# a \"b\nSet Color\t\"a\\\" B\" # it\npen UP"
    let source' := ascii "#\"#\"x\"\nsET\tcOLOR \"a\\\" B\" #\"#!\nPen up"
    Reformatted source source' ∧ source' ≠ source ∧
      Token.ofSource source = .ok
        [⟨.keyword, ascii "set", ⟨2, 0⟩⟩, ⟨.keyword, ascii "color", ⟨2, 4⟩⟩,
          ⟨.string, ascii "a\" B", ⟨2, 10⟩⟩, ⟨.keyword, ascii "pen", ⟨3, 0⟩⟩,
          ⟨.keyword, ascii "up", ⟨3, 4⟩⟩, ⟨.endOfInput, [], ⟨3, 6⟩⟩] ∧
      Token.ofSource source' = Token.ofSource source ∧
      ∀ s : Session Recording, s.run source' = s.run source := by
  intro source source'
  have h : Reformatted source source' := by decide +kernel
  obtain ⟨htokens, -, hrun⟩ := run_reformatted h
  exact ⟨h, by decide, by decide +kernel, htokens, hrun⟩

end Sketch
