import Sketch.Proofs.Stages

/-!
# Programs that are cut short

A token does not depend on what stands behind it, as long as that does not belong to it. So the
tokens in front of a place are the same if the program ends there, or goes on from there in another
way with the same byte (`Cursor.Reads.replace_rest`). A program with a string literal that is not
closed has the tokens of the program in front of that literal (`Token.exists_isBroken_of_error`).

What is read at the head of a text spells its token and goes on as far as it can
(`Lexeme.read?_spec`). The other way round, what spells a token and cannot go on is read
(`Lexeme.read?_of_spelling`), which is what another program needs.
-/

namespace Sketch

/-- The text `body` after the opening quote of a string literal that no quote closes: no part of it
in front of a quote spells a content. -/
def Unclosed (body : Text) : Prop :=
  ∀ inner content after, Escaped inner content → body ≠ inner ++ Byte.quote :: after

/-- The program `source` is broken by a string literal that opens behind `before`, where the tokens
are `own`, and that no quote in `body` closes. -/
structure IsBroken (source before body : Text) (own : List Token) : Prop where
  source_eq : source = before ++ Byte.quote :: body
  /-- No quote closes the literal. -/
  unclosed : Unclosed body
  /-- The program in front of the literal has the tokens. -/
  before_eq : Token.ofSource before =
    .ok (own ++ [⟨.endOfInput, [], Position.start.after before⟩])
  /-- The quote opens a literal, which would be the next token if it were closed at once. -/
  opens : Token.ofSource (before ++ [Byte.quote, Byte.quote]) =
    .ok (own ++ [⟨.string, [], Position.start.after before⟩,
      ⟨.endOfInput, [], Position.start.after (before ++ [Byte.quote, Byte.quote])⟩])

/-! ## What spells a token is read -/

/-- The bytes `b` that start words come after the digits and the point. -/
theorem Byte.toNat_of_isWordStart {b : Byte} (h : b.isWordStart) : 65 ≤ b.toNat := by
  -- A small letter is a letter as it is, and a capital becomes one by adding 32.
  simp [isWordStart, isLetter, lower, isCapital, UInt8.le_iff_toNat_le, ← UInt8.toNat_inj] at h
  grind

/-- The digits stand between the white space and the bytes that start words. -/
theorem Byte.toNat_of_isDigit {b : Byte} (h : b.isDigit) : 48 ≤ b.toNat ∧ b.toNat ≤ 57 := by
  simpa [isDigit, UInt8.le_iff_toNat_le] using h

/-- The white space bytes come first, before all digits. -/
theorem Byte.toNat_of_isSpace {b : Byte} (h : b.isSpace) : b.toNat ≤ 32 := by
  simp [isSpace, UInt8.le_iff_toNat_le, ← UInt8.toNat_inj] at h
  omega

/-- White space, digits and the bytes that start words are three classes with no byte `b` in two of
them. -/
theorem Byte.classes (b : Byte) :
    (b.isSpace → b.isDigit = false ∧ b.isWordStart = false) ∧
    (b.isDigit → b.isSpace = false ∧ b.isWordStart = false) ∧
    (b.isWordStart → b.isSpace = false ∧ b.isDigit = false) := by
  have hspace := toNat_of_isSpace (b := b)
  have hdigit := toNat_of_isDigit (b := b)
  have hword := toNat_of_isWordStart (b := b)
  grind

/-- No token starts as layout does: its `first` byte is neither white space nor a number sign. -/
theorem Spelling.head_not_layout {kind : TokenKind} {text tail : Text} {first : Byte}
    (h : Spelling kind text (first :: tail)) : first.isSpace = false ∧ first ≠ Byte.hash := by
  generalize hspan : first :: tail = span at h
  cases h with
  -- A numeral starts with a digit or its point, and a word with a letter or an underscore.
  | number h =>
    subst hspan
    rcases h.bytes first List.mem_cons_self with hdigit | rfl
    · refine ⟨(first.classes.2.1 hdigit).1, ?_⟩
      rintro rfl
      exact absurd hdigit (by decide)
    · decide
  | keyword h | colorName h =>
    subst hspan
    obtain ⟨hfirst, -⟩ := h
    refine ⟨(first.classes.2.2 hfirst).1, ?_⟩
    rintro rfl
    exact absurd hfirst (by decide)
  | string =>
    obtain ⟨rfl, -⟩ := List.cons.inj hspan
    decide
  | leftParen | rightParen | comma =>
    obtain ⟨rfl, -⟩ := List.cons.inj hspan
    decide
  | unknown hspace hnone =>
    obtain ⟨rfl, -⟩ := List.cons.inj hspan
    refine ⟨hspace, ?_⟩
    rintro rfl
    exact absurd hnone (by decide)

namespace Lexeme

/-- A run `s` of bytes with `p` ends in front of a byte of `t` without it. -/
theorem takeWhile_append_of_stop {p : Byte → Bool} {s t : Text} (hs : ∀ b ∈ s, p b)
    (ht : ∀ b ∈ t.head?, p b = false) : (s ++ t).takeWhile p = s := by
  have hstop : t.takeWhile p = [] := by
    cases t with
    | nil => rfl
    | cons b t => rw [List.takeWhile_cons_of_neg (by simp [ht b rfl])]
  rw [List.takeWhile_append_of_pos hs, hstop, List.append_nil]

/-- What follows a run `s` of bytes with `p` is `t`, if its first byte has no `p`. -/
theorem dropWhile_append_of_stop {p : Byte → Bool} {s t : Text} (hs : ∀ b ∈ s, p b)
    (ht : ∀ b ∈ t.head?, p b = false) : (s ++ t).dropWhile p = t := by
  rw [List.dropWhile_append_of_pos hs]
  cases t with
  | nil => rfl
  | cons b t => rw [List.dropWhile_cons_of_neg (by simp [ht b rfl])]

/-- A number takes up a numeral that starts with its point: all digits of `fraction`. -/
theorem numberTail_of_point {fraction after : Text} (hfraction : ∀ b ∈ fraction, Byte.isDigit b)
    (hends : ∀ b ∈ after.head?, b.isDigit = false) :
    numberTail Byte.dot (fraction ++ after) = fraction := by
  rw [numberTail, if_pos (beq_self_eq_true _)]
  exact takeWhile_append_of_stop hfraction hends

/-- A number takes up a numeral of digits alone, if neither a digit nor a point comes `after` them.
-/
theorem numberTail_of_digits {first : Byte} {tail after : Text}
    (hdigits : ∀ b ∈ first :: tail, b.isDigit)
    (hends : ∀ b ∈ after.head?, b.isDigit = false ∧ b ≠ Byte.dot) :
    numberTail first (tail ++ after) = tail := by
  obtain ⟨hfirst, htail⟩ := List.forall_mem_cons.mp hdigits
  have hrun : digits (tail ++ after) = tail :=
    takeWhile_append_of_stop htail fun b hb => (hends b hb).1
  have hrest : (tail ++ after).dropWhile Byte.isDigit = after :=
    dropWhile_append_of_stop htail fun b hb => (hends b hb).1
  rw [numberTail, if_neg (by simpa using Byte.ne_dot_of_isDigit hfirst), hrun, hrest]
  cases after with
  | nil => rfl
  | cons b after => exact if_neg (by simpa using (hends b rfl).2)

/-- A number takes up a numeral with a point behind the digits `whole`: all digits of `fraction`
with it. -/
theorem numberTail_of_digits_point {first : Byte} {whole fraction after : Text}
    (hwhole : ∀ b ∈ first :: whole, b.isDigit) (hfraction : ∀ b ∈ fraction, Byte.isDigit b)
    (hends : ∀ b ∈ after.head?, b.isDigit = false) :
    numberTail first (whole ++ Byte.dot :: fraction ++ after) = whole ++ Byte.dot :: fraction := by
  obtain ⟨hfirst, hwhole⟩ := List.forall_mem_cons.mp hwhole
  have hstop : ∀ b ∈ (Byte.dot :: (fraction ++ after)).head?, b.isDigit = false := by simp
  have hrun : digits (whole ++ Byte.dot :: (fraction ++ after)) = whole :=
    takeWhile_append_of_stop hwhole hstop
  have hrest : (whole ++ Byte.dot :: (fraction ++ after)).dropWhile Byte.isDigit =
      Byte.dot :: (fraction ++ after) := dropWhile_append_of_stop hwhole hstop
  have hafter : digits (fraction ++ after) = fraction := takeWhile_append_of_stop hfraction hends
  rw [List.append_assoc, List.cons_append, numberTail,
    if_neg (by simpa using Byte.ne_dot_of_isDigit hfirst), hrun, hrest]
  simp [hafter]

/-- A numeral that does not go on with `after` is read by `read?` as a number, with all of its
bytes. -/
theorem read?_of_isNumeral {first : Byte} {tail after : Text} (h : IsNumeral (first :: tail))
    (hends : ∀ b ∈ after.head?, TokenKind.number.EndsBefore b (first :: tail)) :
    read? first (tail ++ after) = some ⟨.number, first :: tail, tail⟩ := by
  have hdigit : ∀ b ∈ after.head?, b.isDigit = false := fun b hb => (hends b hb).1
  have hnumber : (first.isDigit || (first == Byte.dot && (tail ++ after).head?.any Byte.isDigit)) ∧
      numberTail first (tail ++ after) = tail := by
    obtain hfirst | rfl := h.bytes first List.mem_cons_self
    · refine ⟨by simp [hfirst], ?_⟩
      -- The digits go on to the end of the numeral, or to its point.
      have hsplit : tail.takeWhile Byte.isDigit ++ tail.dropWhile Byte.isDigit = tail :=
        List.takeWhile_append_dropWhile
      have hrun : ∀ b ∈ first :: tail.takeWhile Byte.isDigit, b.isDigit :=
        List.forall_mem_cons.mpr ⟨hfirst, List.all_eq_true.mp List.all_takeWhile⟩
      have hstop := head?_dropWhile (p := Byte.isDigit) (t := tail)
      generalize tail.takeWhile Byte.isDigit = whole at hsplit hrun
      generalize tail.dropWhile Byte.isDigit = rest at hsplit hstop
      subst hsplit
      cases rest with
      | nil =>
        rw [List.append_nil] at hends ⊢
        refine numberTail_of_digits hrun fun b hb => ⟨hdigit b hb, ?_⟩
        exact fun hdot => dot_notMem_of_digits hrun ((hends b hb).2 hdot)
      | cons b fraction =>
        obtain rfl : b = Byte.dot := (h.bytes b (by simp)).resolve_left (by simp [hstop b rfl])
        rw [← List.cons_append, isNumeral_point hrun] at h
        exact numberTail_of_digits_point hrun h.1 hdigit
    · -- Behind a point at the start there is nothing but digits, and at least one.
      have hwhole : ∀ b ∈ ([] : Text), b.isDigit := by simp
      obtain ⟨hfraction, hne⟩ := (isNumeral_point hwhole).mp h
      obtain ⟨b, fraction, rfl⟩ := List.exists_cons_of_ne_nil (hne.resolve_left (by simp))
      exact ⟨by simp [hfraction b], numberTail_of_point hfraction hdigit⟩
  rw [read?, if_pos hnumber.1, hnumber.2]

/-- A backslash and the byte `e` after it are read as the byte `unescape e`, and the `rest` of the
literal as it is. -/
theorem quoted?_escape (e : Byte) (rest : Text) :
    quoted? (Byte.backslash :: e :: rest) =
      (quoted? rest).map fun (content, span) =>
        (unescape e :: content, Byte.backslash :: e :: span) := by
  rw [quoted?.eq_def]
  rfl

/-- A string literal whose `body` spells `content` is read up to the quote that closes it, whatever
comes `after`. -/
theorem quoted?_of_escaped {body content : Text} (h : Escaped body content) (after : Text) :
    quoted? (body ++ Byte.quote :: after) = some (content, body ++ [Byte.quote]) := by
  induction h with
  | nil =>
    rw [List.nil_append, quoted?.eq_def]
    rfl
  -- One case for each way to spell a byte. The closing quote comes last.
  | plain hquote hbackslash _ ih =>
    rw [List.cons_append, quoted?.eq_def]
    simp [hquote, hbackslash, ih]
  | newline _ ih =>
    rw [List.cons_append, List.cons_append, quoted?_escape, ih]
    rfl
  | tab _ ih =>
    rw [List.cons_append, List.cons_append, quoted?_escape, ih]
    rfl
  | itself hn ht _ ih =>
    rw [List.cons_append, List.cons_append, quoted?_escape, ih]
    simp [unescape, hn, ht]

/-- A string literal cannot be read exactly if no quote in `body` closes it (`Unclosed`). -/
theorem quoted?_eq_none_iff {body : Text} : quoted? body = none ↔ Unclosed body := by
  constructor
  · rintro h inner content after hinner rfl
    rw [quoted?_of_escaped hinner] at h
    cases h
  · intro h
    cases hquoted : quoted? body with
    | none => rfl
    | some r =>
      obtain ⟨inner, after, hspan, hbody, hinner⟩ := quoted?_spec hquoted
      rw [hspan, List.append_assoc] at hbody
      exact absurd hbody (h inner r.1 after hinner)

/-- A word that does not go on with `after` is read by `read?` as a whole, in small letters. -/
theorem read?_of_isWord {first : Byte} {tail after : Text} (h : IsWord (first :: tail))
    (hends : ∀ b ∈ after.head?, b.isWordByte = false) :
    read? first (tail ++ after) =
      some ⟨.ofWord (Text.lower (first :: tail)), Text.lower (first :: tail), tail⟩ := by
  obtain ⟨hfirst, htail⟩ := h
  -- Numbers and string literals are tried before words, and they start with other bytes.
  have hdigit := (first.classes.2.2 hfirst).2
  have hdot : first ≠ Byte.dot := by
    rintro rfl
    exact absurd hfirst (by decide)
  have hquote : first ≠ Byte.quote := by
    rintro rfl
    exact absurd hfirst (by decide)
  rw [read?, takeWhile_append_of_stop htail hends]
  simp [hdigit, hdot, hquote, hfirst]

/-- What spells a token and does not go on with `after` is read by `read?` as that token. -/
theorem read?_of_spelling {kind : TokenKind} {text tail after : Text} {first : Byte}
    (h : Spelling kind text (first :: tail))
    (hends : ∀ b ∈ after.head?, kind.EndsBefore b (first :: tail)) :
    read? first (tail ++ after) = some ⟨kind, text, tail⟩ := by
  generalize hspan : first :: tail = span at h hends
  cases h with
  | number h =>
    subst hspan
    exact read?_of_isNumeral h hends
  | keyword h hword =>
    subst hspan
    -- Reserved words are looked up first, and a word in neither table is a keyword as well.
    have hkind : TokenKind.ofWord (Text.lower (first :: tail)) = .keyword := by
      unfold TokenKind.ofWord
      split
      case isTrue => rfl
      case isFalse hreserved =>
        have hname := hword.resolve_left (mt TokenKind.isReserved_iff.mpr hreserved)
        rw [if_neg (mt Color.isName_lower_iff.mp hname)]
    rw [read?_of_isWord h hends, hkind]
  -- A color name is in its table, and it is none of the reserved words.
  | colorName h hreserved hname =>
    subst hspan
    have hkind : TokenKind.ofWord (Text.lower (first :: tail)) = .colorName := by
      rw [TokenKind.ofWord, if_neg (mt TokenKind.isReserved_iff.mp hreserved),
        if_pos (Color.isName_lower_iff.mpr hname)]
    rw [read?_of_isWord h hends, hkind]
  | @string body _ h =>
    obtain ⟨rfl, rfl⟩ := List.cons.inj hspan
    show read? Byte.quote (body ++ [Byte.quote] ++ after) = _
    rw [List.append_assoc, List.singleton_append, read?,
      if_neg (by simp [Byte.isDigit, Byte.dot, Byte.quote]), if_pos (beq_self_eq_true _),
      quoted?_of_escaped h]
    rfl
  | leftParen | rightParen | comma =>
    obtain ⟨rfl, rfl⟩ := List.cons.inj hspan
    rfl
  | unknown hspace hnone hdigit hword =>
    obtain ⟨rfl, rfl⟩ := List.cons.inj hspan
    -- A point is such a byte only if no digit follows it.
    have hpoint : ¬ (first.isDigit ||
        (first == Byte.dot && ([] ++ after).head?.any Byte.isDigit)) := by
      simp [hdigit, Option.any_eq_true]
      rintro rfl b hb
      exact hends b hb rfl
    obtain ⟨-, hquote, hleft, hright, hcomma⟩ : first ≠ Byte.hash ∧ first ≠ Byte.quote ∧
        first ≠ 40 ∧ first ≠ 41 ∧ first ≠ 44 := by
      simpa [not_or] using (show first ∉ [Byte.hash, Byte.quote, 40, 41, 44] from hnone)
    have hkind : TokenKind.ofSymbol first = .unknown := by
      simp [TokenKind.ofSymbol, hleft, hright, hcomma]
    rw [read?, if_neg hpoint, if_neg (by simpa using hquote), if_neg (by simp [hword]), hkind]

end Lexeme

namespace Cursor

/-! ## Reading piece by piece -/

/-- A `first` byte that starts no layout is not skipped by `afterLayout`. -/
theorem afterLayout_of_head {first : Byte} (hspace : first.isSpace = false)
    (hhash : first ≠ Byte.hash) (rest : Text) (p : Position) :
    afterLayout false p (first :: rest) = ⟨first :: rest, p⟩ := by
  simp [afterLayout, hspace, hhash]

/-- A `piece` that is well cut in front of `after` is read by `scan` as its token, and the cursor
moves past it. -/
theorem scan_of_fits {piece : Piece} {after : Text} (h : piece.Fits after) (p : Position) :
    (Cursor.mk (piece.text ++ after) p).scan =
      (.ok ⟨piece.token.kind, piece.token.text, p.after piece.gap⟩,
        ⟨after, p.after piece.text⟩) := by
  obtain ⟨gap, span, token⟩ := piece
  obtain ⟨hgap, hspelling, hends⟩ := h
  obtain ⟨first, tail, rfl⟩ := List.exists_cons_of_ne_nil hspelling.span_ne_nil
  obtain ⟨hspace, hhash⟩ := hspelling.head_not_layout
  have hskip : (Cursor.mk (gap ++ first :: tail ++ after) p).skipLayout =
      ⟨first :: (tail ++ after), p.after gap⟩ := by
    rw [skipLayout, List.append_assoc, afterLayout_append hgap]
    exact afterLayout_of_head hspace hhash _ _
  -- The head of the span is no layout, so reading starts at it, and `hends` says that it stops
  -- behind it.
  have hread := Lexeme.read?_of_spelling hspelling hends
  have hadvance := advance_append (first :: tail) after (p.after gap)
  rw [List.length_cons, List.cons_append] at hadvance
  rw [Piece.text, scan, hskip]
  simp only [hread, hadvance, Position.after_append]

/-- A `scan` fails only at a string literal that no quote closes, and then goes on to the end, which
is the place it reports. -/
theorem scan_error_spec {c c' : Cursor} {e : LexicalError} (h : c.scan = (.error e, c')) :
    (∃ gap body, c.rest = gap ++ Byte.quote :: body ∧ Layout gap ∧ Unclosed body) ∧
      e = ⟨c.position.after c.rest⟩ ∧ c' = ⟨[], c.position.after c.rest⟩ := by
  obtain ⟨gap, hgap⟩ : ∃ gap, Skips c.position c.rest c.skipLayout gap :=
    exists_skips c.position c.rest
  unfold scan at h
  generalize c.skipLayout = skipped at h hgap
  obtain ⟨rest, p⟩ := skipped
  have hp : p = c.position.after gap := hgap.place
  cases rest with
  | nil => simp at h
  | cons b rest =>
    cases hread : Lexeme.read? b rest with
    | some l => simp [hread] at h
    | none =>
      have hrest : c.rest = gap ++ b :: rest := hgap.text
      -- Only a string literal can be broken.
      obtain ⟨rfl, hquoted⟩ : b = Byte.quote ∧ Lexeme.quoted? rest = none := by
        unfold Lexeme.read? at hread
        split at hread
        · cases hread
        · split at hread
          · exact ⟨eq_of_beq ‹_›, Option.map_eq_none_iff.mp hread⟩
          · split at hread <;> cases hread
      have hend : (Cursor.mk (Byte.quote :: rest) p).advance (Byte.quote :: rest).length =
          ⟨[], c.position.after c.rest⟩ := by
        rw [advance, List.drop_length, List.take_length, hp, hrest, Position.after_append]
      simp only [hread, hend, Prod.mk.injEq, Except.error.injEq] at h
      refine ⟨⟨gap, rest, hrest, hgap.layout (by simp), ?_⟩, h.1.symm, h.2.symm⟩
      exact Lexeme.quoted?_eq_none_iff.mp hquoted

/-- The tokens that are read by `scan` on the way from one cursor to another, none of which is the
end marker. -/
inductive Reads : Cursor → List Token → Cursor → Prop where
  | nil {c : Cursor} : Reads c [] c
  | cons {c c' last : Cursor} {t : Token} {ts : List Token} : c.scan = (.ok t, c') →
      t.kind ≠ .endOfInput → Reads c' ts last → Reads c (t :: ts) last

variable {c last : Cursor} {own : List Token}

/-- All tokens from `c` on are `own`, those on the way to `last`, and then those from `last` on. -/
theorem Reads.scanAll (h : Reads c own last) :
    c.scanAll = (last.scanAll.1.map (own ++ ·), last.scanAll.2) := by
  induction h with
  | nil =>
    rename_i c
    obtain ⟨result, final⟩ := c.scanAll
    cases result <;> rfl
  | @cons c c' last t ts hscan hkind _ ih =>
    rw [scanAll_of_token hscan hkind, ih]
    cases last.scanAll.1 <;> rfl

/-- The tokens `own` on the way are no end markers. -/
theorem Reads.kind_ne (h : Reads c own last) : ∀ t ∈ own, t.kind ≠ .endOfInput := by
  induction h with
  | nil => simp
  | cons _ hkind _ ih => exact List.forall_mem_cons.mpr ⟨hkind, ih⟩

/-- What is read on the way stands in `front` of what is left then. It is read the same if what is
left is replaced by nothing, or by a `rest` that starts with the same byte. -/
theorem Reads.replace_rest (h : Reads c own last) :
    ∃ front, c.rest = front ++ last.rest ∧ last.position = c.position.after front ∧
      ∀ rest : Text, (∀ b ∈ rest.head?, b ∈ last.rest.head?) →
        Reads ⟨front ++ rest, c.position⟩ own ⟨rest, last.position⟩ := by
  induction h with
  | nil => exact ⟨[], rfl, rfl, fun _ _ => .nil⟩
  | @cons c c' last t ts hscan hkind _ ih =>
    obtain ⟨front, hrest, hplace, hreplace⟩ := ih
    rcases scan_spec hscan with ⟨rfl, -⟩ | ⟨piece, rfl, hbytes, hfits, htoken, hnext⟩
    · exact absurd rfl hkind
    · refine ⟨piece.text ++ front, ?_, ?_, ?_⟩
      · rw [hbytes, hrest, List.append_assoc]
      · rw [hplace, hnext, Position.after_append]
      · intro rest hhead
        -- Only the byte behind the token has a say in where it ends.
        have hfits' : piece.Fits (front ++ rest) := by
          refine ⟨hfits.gap, hfits.spelling, fun b hb => hfits.ends b ?_⟩
          rw [hrest]
          cases front with
          | nil => exact hhead b hb
          | cons b' front => exact hb
        have hread := scan_of_fits hfits' c.position
        rw [← htoken, ← hnext] at hread
        rw [List.append_assoc]
        exact .cons hread hkind (hreplace rest hhead)

/-- A literal that is closed at once, behind the layout `gap` and at the end, is the last token. -/
theorem scanAll_of_empty_literal {gap : Text} (hgap : Layout gap) (p : Position) :
    (Cursor.mk (gap ++ [Byte.quote, Byte.quote]) p).scanAll.1 =
      .ok [⟨.string, [], p.after gap⟩,
        ⟨.endOfInput, [], p.after (gap ++ [Byte.quote, Byte.quote])⟩] := by
  let piece : Piece := ⟨gap, [Byte.quote, Byte.quote], ⟨.string, [], p⟩⟩
  have hfits : piece.Fits [] := ⟨hgap, .string .nil, by simp⟩
  have hscan := scan_of_fits hfits p
  rw [List.append_nil] at hscan
  have hmarker : (Cursor.mk [] (p.after piece.text)).scan =
      (.ok ⟨.endOfInput, [], p.after piece.text⟩, ⟨[], p.after piece.text⟩) := rfl
  have hall := scanAll_of_token hscan TokenKind.noConfusion
  rw [scanAll_of_endOfInput hmarker rfl] at hall
  exact congrArg Prod.fst hall

/-- Reading goes on from `c` to the layout at the end, or to a string literal that is not closed. -/
theorem exists_reads (c : Cursor) :
    ∃ own last, Reads c own last ∧ (EndLayout last.rest ∨ ∃ e c', last.scan = (.error e, c')) := by
  induction c using scanAll.induct with
  | case1 c e c' hscan => exact ⟨[], c, .nil, .inr ⟨e, c', hscan⟩⟩
  | case2 c t c' hscan hend =>
    rcases scan_spec hscan with ⟨-, hlayout⟩ | ⟨piece, rfl, -, hfits, -⟩
    · exact ⟨[], c, .nil, .inl hlayout⟩
    · exact absurd hend hfits.spelling.kind_ne
  | case3 c t c' hscan hend _ _ _ _ ih =>
    obtain ⟨own, last, hreads, hlast⟩ := ih
    exact ⟨t :: own, last, .cons hscan hend hreads, hlast⟩

end Cursor

namespace Token

variable {source : Text}

/-- The tokens of a program are `own`, those on a way from its start, and then what is read at the
layout or the string literal that the way leads to. -/
theorem exists_reads (source : Text) :
    ∃ own last, (Cursor.ofSource source).Reads own last ∧
      ofSource source = last.scanAll.1.map (own ++ ·) ∧
      (EndLayout last.rest ∨ ∃ e c', last.scan = (.error e, c')) := by
  obtain ⟨own, last, hreads, hlast⟩ := (Cursor.ofSource source).exists_reads
  refine ⟨own, last, hreads, ?_, hlast⟩
  rw [ofSource, hreads.scanAll]

/-- The way from the start of a program that is read leads to the layout at its end, past its tokens
`own`, to the `marker`. -/
theorem exists_reads_of_ok {own : List Token} {marker : Token}
    (h : ofSource source = .ok (own ++ [marker])) :
    ∃ last : Cursor, (Cursor.ofSource source).Reads own last ∧
      last.scan = (.ok marker, ⟨[], marker.position⟩) := by
  obtain ⟨own', last, hreads, hall, hlast⟩ := exists_reads source
  rcases hlast with hlayout | ⟨e, c', herror⟩
  · have hend := Cursor.scan_of_endLayout hlayout
    rw [h, Cursor.scanAll_of_endOfInput hend rfl] at hall
    obtain ⟨rfl, hmarker⟩ := List.append_inj' (Except.ok.inj hall) rfl
    obtain rfl := List.singleton_inj.mp hmarker
    exact ⟨last, hreads, hend⟩
  · rw [h, Cursor.scanAll_of_error herror] at hall
    cases hall

/-- The end of what is left on the way from the start of a program is the end of that program. -/
theorem after_rest_of_reads {own : List Token} {last : Cursor}
    (h : (Cursor.ofSource source).Reads own last) :
    last.position.after last.rest = Position.start.after source := by
  obtain ⟨front, hsource, hplace, -⟩ := h.replace_rest
  calc
    last.position.after last.rest = (Position.start.after front).after last.rest := by
      rw [hplace]
      rfl
    _ = Position.start.after (front ++ last.rest) := (Position.after_append _ _ _).symm
    _ = Position.start.after source := congrArg Position.start.after hsource.symm

/-- A string literal that is not closed (`hopen`) breaks the program behind the tokens `own` on the
way to it. -/
theorem exists_isBroken_of_reads {own : List Token} {last : Cursor} {gap body : Text}
    (h : (Cursor.ofSource source).Reads own last) (hrest : last.rest = gap ++ Byte.quote :: body)
    (hgap : Layout gap) (hopen : Unclosed body) : ∃ before, IsBroken source before body own := by
  obtain ⟨front, hsource, hplace, hreplace⟩ := h.replace_rest
  have hplaces : ∀ text, last.position.after text = Position.start.after (front ++ text) := by
    intro text
    rw [hplace, Position.after_append]
    rfl
  refine ⟨front ++ gap, ?_, hopen, ?_, ?_⟩
  · rw [List.append_assoc, ← hrest]
    exact hsource
  · -- The layout in front of the literal is left if the program ends there.
    have hhead : ∀ b ∈ gap.head?, b ∈ last.rest.head? := by
      intro b hb
      rw [hrest, List.head?_append, Option.mem_def.mp hb]
      rfl
    have hread : (Cursor.ofSource (front ++ gap)).Reads own ⟨gap, last.position⟩ :=
      hreplace gap hhead
    have hlayout : EndLayout (Cursor.mk gap last.position).rest := .closed hgap
    have hmarker := Cursor.scanAll_of_endOfInput (Cursor.scan_of_endLayout hlayout) rfl
    rw [ofSource, hread.scanAll, hmarker, ← hplaces]
    rfl
  · -- The literal that is closed at once starts as the one that is not.
    have hhead : ∀ b ∈ (gap ++ [Byte.quote, Byte.quote]).head?, b ∈ last.rest.head? := by
      intro b hb
      rw [hrest]
      cases gap <;> exact hb
    have hread : (Cursor.ofSource (front ++ (gap ++ [Byte.quote, Byte.quote]))).Reads own
        ⟨gap ++ [Byte.quote, Byte.quote], last.position⟩ := hreplace _ hhead
    rw [List.append_assoc, ofSource, hread.scanAll, Cursor.scanAll_of_empty_literal hgap,
      ← hplaces, ← hplaces]
    rfl

/-- A program is refused where a string literal breaks it, and the place that is reported is its
end. -/
theorem exists_isBroken_of_error {e : LexicalError} (h : ofSource source = .error e) :
    ∃ (before body : Text) (own : List Token) (last : Cursor),
      IsBroken source before body own ∧ e = ⟨Position.start.after source⟩ ∧
      (Cursor.ofSource source).Reads own last ∧ last.scan = (.error e, ⟨[], e.position⟩) := by
  obtain ⟨own, last, hreads, hall, hlast⟩ := exists_reads source
  rcases hlast with hlayout | ⟨e', c', herror⟩
  · rw [h, Cursor.scanAll_of_endOfInput (Cursor.scan_of_endLayout hlayout) rfl] at hall
    cases hall
  · obtain ⟨⟨gap, body, hrest, hgap, hopen⟩, rfl, rfl⟩ := Cursor.scan_error_spec herror
    rw [h, Cursor.scanAll_of_error herror] at hall
    obtain rfl := Except.error.inj hall
    obtain ⟨before, hbroken⟩ := exists_isBroken_of_reads hreads hrest hgap hopen
    exact ⟨before, body, own, last, hbroken, by rw [after_rest_of_reads hreads], hreads, herror⟩

end Token

end Sketch
