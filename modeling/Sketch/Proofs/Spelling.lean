import Sketch.Proofs.Literal
import Sketch.Token.Lexeme

/-!
# How tokens are spelled

`Spelling kind text span` says that the bytes `span` spell a token of the kind with the text, and
`TokenKind.EndsBefore` which bytes end a token when they follow it. `Lexeme.read?_spec` shows that
what is read at the head of a text spells its token and goes on as far as such a token can.

A string literal is spelled with escapes (`Escaped`), so that its quotes stand at its two ends only,
and a number is a numeral, as for `Binary64.ofLiteral?_eq_some_iff`.
-/

namespace Sketch

/-- Letters, digits and underscores, the first of which is no digit. -/
inductive IsWord : Text → Prop where
  | intro {first : Byte} {tail : Text} : first.isWordStart → (∀ b ∈ tail, b.isWordByte) →
      IsWord (first :: tail)

/-- Every byte of a word `t`, the first one included, is one that words go on with
(`Byte.isWordByte`). -/
theorem IsWord.isWordByte {t : Text} (h : IsWord t) : ∀ b ∈ t, b.isWordByte := by
  obtain ⟨hfirst, htail⟩ := h
  exact List.forall_mem_cons.mpr ⟨Bool.or_eq_true_iff.mpr (.inl hfirst), htail⟩

/-- The bytes of the first text spell the content of a string literal, which is the second text. A
quote or a backslash among them stands after a backslash. After a backslash `n` is a line feed, `t`
is a tab, and any other byte is itself. -/
inductive Escaped : Text → Text → Prop where
  | nil : Escaped [] []
  | plain {b : Byte} {body content : Text} : b ≠ Byte.quote → b ≠ Byte.backslash →
      Escaped body content → Escaped (b :: body) (b :: content)
  | newline {body content : Text} : Escaped body content →
      Escaped (Byte.backslash :: 110 :: body) (Byte.newline :: content)
  | tab {body content : Text} : Escaped body content →
      Escaped (Byte.backslash :: 116 :: body) (Byte.tab :: content)
  | itself {b : Byte} {body content : Text} : b ≠ 110 → b ≠ 116 → Escaped body content →
      Escaped (Byte.backslash :: b :: body) (b :: content)

/-- A backslash and any byte `e` after it spell the one byte `Lexeme.unescape e`, in front of what
`body` spells. -/
theorem Escaped.escape {body content : Text} (h : Escaped body content) (e : Byte) :
    Escaped (Byte.backslash :: e :: body) (Lexeme.unescape e :: content) := by
  by_cases hn : e = 110
  · subst hn
    exact .newline h
  by_cases ht : e = 116
  · subst ht
    exact .tab h
  have hitself : Lexeme.unescape e = e := by simp [Lexeme.unescape, hn, ht]
  rw [hitself]
  exact .itself hn ht h

/-- The bytes of `span` spell a token of the `kind` with the `text`, where the arguments stand in
the order `kind`, `text`, `span`. White space and comments spell no token. -/
inductive Spelling : TokenKind → Text → Text → Prop where
  | number {span : Text} : IsNumeral span → Spelling .number span span
  /-- A word counts as a keyword if it is one or is no color name. -/
  | keyword {span : Text} : IsWord span →
      Text.lower span ∈ TokenKind.reserved ∨ Text.lower span ∉ Color.table.map Prod.fst →
      Spelling .keyword (Text.lower span) span
  | colorName {span : Text} : IsWord span → Text.lower span ∉ TokenKind.reserved →
      Text.lower span ∈ Color.table.map Prod.fst → Spelling .colorName (Text.lower span) span
  | string {body content : Text} : Escaped body content →
      Spelling .string content (Byte.quote :: body ++ [Byte.quote])
  | leftParen : Spelling .leftParen (ascii "(") (ascii "(")
  | rightParen : Spelling .rightParen (ascii ")") (ascii ")")
  | comma : Spelling .comma (ascii ",") (ascii ",")
  /-- Any other byte is a token of its own. -/
  | unknown {b : Byte} : b.isSpace = false → b ∉ ascii "#\"()," → b.isDigit = false →
      b.isWordStart = false → Spelling .unknown [b] [b]

/-- A token of the given kind, with the bytes `span`, does not go on with the byte `b` after them. A
second point ends a number, and a point alone would start a number with a digit after it. -/
def TokenKind.EndsBefore (b : Byte) (span : Text) : TokenKind → Prop
  | number => b.isDigit = false ∧ (b = Byte.dot → Byte.dot ∈ span)
  | keyword | colorName => b.isWordByte = false
  | unknown => span = [Byte.dot] → b.isDigit = false
  | string | leftParen | rightParen | comma | endOfInput => True

/-- A word, whether `TokenKind.ofWord` makes it a keyword or a color name, ends before a byte `b`
that belongs in no word. -/
theorem TokenKind.endsBefore_ofWord {b : Byte} {word span : Text} (h : b.isWordByte = false) :
    (ofWord word).EndsBefore b span := by
  unfold ofWord
  split
  · exact h
  · split
    · exact h
    · exact h

/-- A token of the single byte `first` ends before any byte `b`, unless `first` is a point and `b`
is a digit, which is a number. -/
theorem TokenKind.endsBefore_ofSymbol {b first : Byte} (h : first = Byte.dot → b.isDigit = false) :
    (ofSymbol first).EndsBefore b [first] := by
  unfold ofSymbol
  split
  · trivial
  · split
    · trivial
    · split
      · trivial
      · exact fun hspan => h (List.singleton_inj.mp hspan)

/-- A token takes up at least one byte: no `Spelling` has an empty `span`. This is what makes
reading go forward. -/
theorem Spelling.span_ne_nil {kind : TokenKind} {text span : Text} (h : Spelling kind text span) :
    span ≠ [] := by
  cases h with
  | number h =>
    obtain ⟨b, hb, -⟩ := h.digit
    exact List.ne_nil_of_mem hb
  | keyword h _ => cases h; simp
  | colorName h _ _ => cases h; simp
  | string _ => simp
  | leftParen | rightParen | comma | unknown => exact List.cons_ne_nil _ _

/-- No bytes spell the end marker, so a token with a `Spelling` has another `kind` than
`.endOfInput`. -/
theorem Spelling.kind_ne {kind : TokenKind} {text span : Text} (h : Spelling kind text span) :
    kind ≠ .endOfInput := by
  cases h <;> exact TokenKind.noConfusion

/-- The check `isReserved` of the running code accepts a word exactly if it is in the list
`reserved`. -/
theorem TokenKind.isReserved_iff {word : Text} : isReserved word ↔ word ∈ reserved :=
  List.contains_iff_mem

/-- A `word` in small letters is the name of a color exactly if `Color.table` has it as a key. -/
theorem Color.isName_lower_iff {word : Text} :
    isName (Text.lower word) ↔ Text.lower word ∈ table.map Prod.fst := by
  rw [isName, named?, Text.lower_lower, List.lookup_isSome_iff]
  simp

/-- The kind that `TokenKind.ofWord` gives to a word in small letters is one that the word, in any
case of letters, spells. -/
theorem Spelling.ofWord {span : Text} (h : IsWord span) :
    Spelling (.ofWord (Text.lower span)) (Text.lower span) span := by
  unfold TokenKind.ofWord
  split
  case isTrue hword => exact .keyword h (.inl (TokenKind.isReserved_iff.mp hword))
  case isFalse hword =>
    have hreserved := mt TokenKind.isReserved_iff.mpr hword
    split
    case isTrue hcolor => exact .colorName h hreserved (Color.isName_lower_iff.mp hcolor)
    case isFalse hcolor => exact .keyword h (.inr (mt Color.isName_lower_iff.mpr hcolor))

/-- The kind that `TokenKind.ofSymbol` gives to a byte `b` is one that `b` alone spells, if `b`
starts no layout, literal, number or word. -/
theorem Spelling.ofSymbol {b : Byte} (hspace : b.isSpace = false) (hhash : b ≠ Byte.hash)
    (hquote : b ≠ Byte.quote) (hdigit : b.isDigit = false) (hword : b.isWordStart = false) :
    Spelling (.ofSymbol b) [b] [b] := by
  by_cases hleft : b = 40
  · subst hleft
    exact .leftParen
  by_cases hright : b = 41
  · subst hright
    exact .rightParen
  by_cases hcomma : b = 44
  · subst hcomma
    exact .comma
  -- What is left is a byte that starts no other token.
  have hkind : TokenKind.ofSymbol b = .unknown := by
    simp [TokenKind.ofSymbol, hleft, hright, hcomma]
  have hnone : b ∉ ascii "#\"()," := by
    show b ∉ [Byte.hash, Byte.quote, 40, 41, 44]
    simp [hhash, hquote, hleft, hright, hcomma]
  rw [hkind]
  exact .unknown hspace hnone hdigit hword

namespace Lexeme

/-- What `quoted?` reads as a string literal is an escaped content with its closing quote: `span` is
a `body` that spells `content`, and the first quote of `t` that no backslash stands before. -/
theorem quoted?_spec {t content span : Text} (h : quoted? t = some (content, span)) :
    ∃ body after, span = body ++ [Byte.quote] ∧ t = span ++ after ∧ Escaped body content := by
  fun_induction quoted? t generalizing content span with
  | case1 => cases h
  | case2 b rest hquote =>
    obtain ⟨rfl, rfl⟩ : [] = content ∧ [b] = span := by simpa using h
    rw [eq_of_beq hquote]
    exact ⟨[], rest, rfl, rfl, .nil⟩
  | case3 => cases h
  | case4 b hquote hbackslash e rest ih =>
    obtain ⟨⟨inner, tail⟩, hrest, hpair⟩ := Option.map_eq_some_iff.mp h
    obtain ⟨rfl, rfl⟩ : unescape e :: inner = content ∧ b :: e :: tail = span := by
      simpa using hpair
    obtain ⟨body, after, rfl, rfl, hbody⟩ := ih hrest
    rw [eq_of_beq hbackslash]
    exact ⟨Byte.backslash :: e :: body, after, rfl, rfl, hbody.escape e⟩
  | case5 b rest hquote hbackslash ih =>
    obtain ⟨⟨inner, tail⟩, hrest, hpair⟩ := Option.map_eq_some_iff.mp h
    obtain ⟨rfl, rfl⟩ : b :: inner = content ∧ b :: tail = span := by simpa using hpair
    obtain ⟨body, after, rfl, rfl, hbody⟩ := ih hrest
    exact ⟨b :: body, after, rfl, rfl,
      .plain (by simpa using hquote) (by simpa using hbackslash) hbody⟩

/-- A run of bytes with `p` stops at a byte without it: the first byte that `dropWhile p` leaves of
`t`, if any, has `p b = false`. -/
theorem head?_dropWhile {p : Byte → Bool} {t : Text} :
    ∀ b ∈ (t.dropWhile p).head?, p b = false := by
  intro b hb
  have hstop := List.head?_dropWhile_not p t
  rw [Option.mem_def.mp hb] at hstop
  exact hstop

/-- The bytes that `digits` takes from the head of a text `t` are all digits. -/
theorem isDigit_of_mem_digits {t : Text} : ∀ b ∈ digits t, b.isDigit :=
  List.all_eq_true.mp List.all_takeWhile

/-- A number that starts with its point goes on, by `numberTail`, with the digits after it. They
make a numeral, and no byte `after` them belongs to the number. -/
theorem numberTail_dot {rest : Text} (h : ∃ b ∈ rest.head?, b.isDigit) :
    IsNumeral (Byte.dot :: numberTail Byte.dot rest) ∧
      ∃ after, rest = numberTail Byte.dot rest ++ after ∧
        ∀ b ∈ after.head?,
          TokenKind.number.EndsBefore b (Byte.dot :: numberTail Byte.dot rest) := by
  have htail : numberTail Byte.dot rest = digits rest := if_pos (beq_self_eq_true _)
  have hne : digits rest ≠ [] := by
    obtain ⟨b, hb, hdigit⟩ := h
    obtain ⟨after, rfl⟩ := List.head?_eq_some_iff.mp hb
    simp [digits, hdigit]
  rw [htail]
  constructor
  · have hwhole : ∀ b ∈ ([] : Text), b.isDigit := by simp
    exact (isNumeral_point hwhole).mpr ⟨isDigit_of_mem_digits, .inr hne⟩
  · refine ⟨rest.dropWhile Byte.isDigit, List.takeWhile_append_dropWhile.symm, fun b hb => ?_⟩
    exact ⟨head?_dropWhile b hb, fun _ => by simp⟩

/-- A number that starts with the digit `first` goes on, by `numberTail`, with digits and at most
one point, after which there may be more digits. They make a numeral, and no byte `after` them
belongs to the number. -/
theorem numberTail_digit {first : Byte} (h : first.isDigit) (rest : Text) :
    IsNumeral (first :: numberTail first rest) ∧
      ∃ after, rest = numberTail first rest ++ after ∧
        ∀ b ∈ after.head?, TokenKind.number.EndsBefore b (first :: numberTail first rest) := by
  have hdot : ¬(first == Byte.dot) = true := by simpa using Byte.ne_dot_of_isDigit h
  have hwhole : ∀ b ∈ first :: digits rest, b.isDigit :=
    List.forall_mem_cons.mpr ⟨h, isDigit_of_mem_digits⟩
  have hsplit : digits rest ++ rest.dropWhile Byte.isDigit = rest :=
    List.takeWhile_append_dropWhile
  unfold numberTail
  rw [if_neg hdot]
  -- The digits go on to the end, to the point of the number, or to a byte that ends it.
  cases hstop : rest.dropWhile Byte.isDigit with
  | nil =>
    rw [hstop, List.append_nil] at hsplit
    exact ⟨(isNumeral_digits hwhole).mpr (List.cons_ne_nil _ _), [], by simpa using hsplit.symm,
      by simp⟩
  | cons b fraction =>
    have hb : b.isDigit = false := head?_dropWhile (t := rest) b (by simp [hstop])
    by_cases hpoint : b = Byte.dot
    · subst hpoint
      simp only [beq_self_eq_true, if_true]
      constructor
      · exact (isNumeral_point hwhole).mpr ⟨isDigit_of_mem_digits, .inl (List.cons_ne_nil _ _)⟩
      · -- A point already stands in the span, so that a second one ends the number.
        refine ⟨fraction.dropWhile Byte.isDigit, ?_, fun b hb => ?_⟩
        · have hfraction : digits fraction ++ fraction.dropWhile Byte.isDigit = fraction :=
            List.takeWhile_append_dropWhile
          calc
            rest = digits rest ++ Byte.dot :: fraction := by rw [← hstop, hsplit]
            _ = digits rest ++ Byte.dot :: digits fraction ++ fraction.dropWhile Byte.isDigit := by
              rw [List.append_assoc, List.cons_append, hfraction]
        · exact ⟨head?_dropWhile b hb, fun _ => by simp⟩
    · simp only [beq_iff_eq, hpoint, if_false]
      constructor
      · exact (isNumeral_digits hwhole).mpr (List.cons_ne_nil _ _)
      · refine ⟨b :: fraction, by rw [← hstop, hsplit], fun c hc => ?_⟩
        obtain rfl : b = c := by simpa using hc
        exact ⟨hb, fun hc => absurd hc hpoint⟩

/-- What `read?` reads at the head of a text that starts with no layout spells its token, and the
bytes `after` it do not go on with that token (`EndsBefore`). So the token is the longest one there.
-/
theorem read?_spec {first : Byte} {rest : Text} {l : Lexeme} (hspace : first.isSpace = false)
    (hhash : first ≠ Byte.hash) (h : read? first rest = some l) :
    Spelling l.kind l.text (first :: l.tail) ∧
      ∃ after, rest = l.tail ++ after ∧
        ∀ b ∈ after.head?, l.kind.EndsBefore b (first :: l.tail) := by
  unfold read? at h
  split at h
  case isTrue hnumber =>
    obtain rfl := Option.some.inj h
    -- A number starts with a digit, or with a point in front of one.
    by_cases hdigit : first.isDigit
    · obtain ⟨hnumeral, hafter⟩ := numberTail_digit hdigit rest
      exact ⟨.number hnumeral, hafter⟩
    · obtain ⟨rfl, hhead⟩ : first = Byte.dot ∧ ∃ b ∈ rest.head?, b.isDigit := by
        simpa [hdigit, Option.any_eq_true] using hnumber
      obtain ⟨hnumeral, hafter⟩ := numberTail_dot hhead
      exact ⟨.number hnumeral, hafter⟩
  -- It is no number, so a point in front has no digit after it, which the last case needs.
  case isFalse hnumber =>
    obtain ⟨hdigit, hpoint⟩ : first.isDigit = false ∧
        (first = Byte.dot → ∀ b ∈ rest.head?, b.isDigit = false) := by
      simpa [Option.any_eq_true] using hnumber
    split at h
    case isTrue hquote =>
      obtain ⟨⟨content, span⟩, hquoted, rfl⟩ := Option.map_eq_some_iff.mp h
      obtain ⟨body, after, rfl, rfl, hbody⟩ := quoted?_spec hquoted
      obtain rfl := eq_of_beq hquote
      exact ⟨.string hbody, after, rfl, fun _ _ => trivial⟩
    case isFalse hquote =>
      split at h
      case isTrue hword =>
        obtain rfl := Option.some.inj h
        have hbytes : ∀ b ∈ rest.takeWhile Byte.isWordByte, b.isWordByte :=
          List.all_eq_true.mp List.all_takeWhile
        refine ⟨.ofWord (.intro hword hbytes), rest.dropWhile Byte.isWordByte,
          List.takeWhile_append_dropWhile.symm, fun b hb => ?_⟩
        exact TokenKind.endsBefore_ofWord (head?_dropWhile b hb)
      case isFalse hword =>
        obtain rfl := Option.some.inj h
        refine ⟨.ofSymbol hspace hhash (by simpa using hquote) hdigit (by simpa using hword), rest,
          rfl, fun b hb => ?_⟩
        exact TokenKind.endsBefore_ofSymbol fun hdot => hpoint hdot b hb

end Lexeme

end Sketch
