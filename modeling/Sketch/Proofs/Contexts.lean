import Sketch.Proofs.Truncation

/-!
# Where a string literal is left open

A quote opens a string literal unless it stands in a comment or in an earlier literal, so what a
quote does depends on everything before it. A `Context` says what the next byte of a program stands
in. It is found byte by byte, by the quotes, the number signs, the backslashes and the line feeds
alone, and knows nothing of tokens.

`Token.refused_iff_leavesOpen` shows that the tokens of a program are refused exactly if a literal
is left open in it, that the place reported is the end of the program, and that every other program
has its tokens, at most one more than it has bytes.

Reading goes along with the contexts: layout and the bytes of a token lead from code to code
(`Context.after_layout`, `Context.after_span`), and so does all that is read on the way to the end
or to the literal that breaks the program (`Cursor.Reads.exists_code`). A program with tokens ends
outside of literals (`Token.inLiteral_of_ok`), and one that leaves a literal open ends in it
(`LeavesOpen.inLiteral`), so no program does both.
-/

namespace Sketch

/-- What the next byte of a program stands in, as a state of four that bytes lead between. -/
inductive Context where
  /-- Neither a comment nor a string literal. -/
  | code
  | comment
  | literal
  /-- A string literal, behind a backslash that takes up the byte. -/
  | escape
deriving DecidableEq

namespace Context

/-- What the byte after the byte `b` stands in. The states change at quotes, number signs, line
feeds and backslashes only. -/
def next : Context → Byte → Context
  | code, b => if b == Byte.quote then literal else if b == Byte.hash then comment else code
  | comment, b => if b == Byte.newline then code else comment
  | literal, b => if b == Byte.quote then code else if b == Byte.backslash then escape else literal
  | escape, _ => literal

/-- What the byte after a `piece` of the program stands in, if its first byte stands in `c`. -/
def after (c : Context) (piece : Text) : Context := piece.foldl next c

/-- The next byte stands in a string literal, behind a backslash or not. -/
def inLiteral : Context → Bool
  | literal | escape => true
  | code | comment => false

/-- No bytes lead from `c` to `c`. -/
@[simp]
theorem after_nil (c : Context) : c.after [] = c := rfl

/-- The byte `b` leads to `c.next b`, from where the `piece` leads on. -/
@[simp]
theorem after_cons (c : Context) (b : Byte) (piece : Text) :
    c.after (b :: piece) = (c.next b).after piece := rfl

/-- The bytes of `s` lead to a context from where the bytes of `t` lead on. -/
theorem after_append (c : Context) (s t : Text) : c.after (s ++ t) = (c.after s).after t :=
  List.foldl_append

/-- A quote in code opens a literal. -/
@[simp]
theorem next_quote : code.next Byte.quote = literal := rfl

/-- A byte `b` that opens neither a literal nor a comment leaves code as it is. -/
theorem next_code {b : Byte} (hquote : b ≠ Byte.quote) (hhash : b ≠ Byte.hash) :
    code.next b = code := by
  simp [next, hquote, hhash]

/-- A byte `b` after the number sign leaves code as it is. All digits and letters are such bytes. -/
theorem next_of_hash_lt {b : Byte} (h : 35 < b.toNat) : code.next b = code := by
  apply next_code
  · rintro rfl
    exact absurd h (by decide)
  · rintro rfl
    exact absurd h (by decide)

/-- White space leaves code as it is. -/
theorem next_space {b : Byte} (h : b.isSpace) : code.next b = code := by
  apply next_code
  · rintro rfl
    exact absurd h (by decide)
  · rintro rfl
    exact absurd h (by decide)

/-- The bytes of a numeral `t` leave code as it is. -/
theorem next_numeral {t : Text} (h : IsNumeral t) : ∀ b ∈ t, code.next b = code := by
  intro b hb
  rcases h.bytes b hb with hdigit | rfl
  · have hrange := Byte.toNat_of_isDigit hdigit
    exact next_of_hash_lt (by omega)
  · rfl

/-- The bytes of a word `t` leave code as it is. -/
theorem next_word {t : Text} (h : IsWord t) : ∀ b ∈ t, code.next b = code := by
  intro b hb
  rcases Bool.or_eq_true_iff.mp (h.isWordByte b hb) with hstart | hdigit
  · have hrange := Byte.toNat_of_isWordStart hstart
    exact next_of_hash_lt (by omega)
  · have hrange := Byte.toNat_of_isDigit hdigit
    exact next_of_hash_lt (by omega)

/-- The bytes of a comment `body` without a line feed leave the comment as it is. -/
theorem next_comment {body : Text} (h : Byte.newline ∉ body) :
    ∀ b ∈ body, comment.next b = comment := by
  intro b hb
  have hline : b ≠ Byte.newline := fun heq => h (heq ▸ hb)
  simp [next, hline]

/-- Bytes `t` that leave a context `c` as it is one by one do so together. -/
theorem after_eq_self {c : Context} {t : Text} (h : ∀ b ∈ t, c.next b = c) : c.after t = c := by
  induction t with
  | nil => rfl
  | cons b t ih =>
    obtain ⟨hb, ht⟩ := List.forall_mem_cons.mp h
    rw [after_cons, hb, ih ht]

/-- Layout `t` leads from code to code, past its comments. -/
theorem after_layout {t : Text} (h : Layout t) : code.after t = code := by
  induction h with
  | nil => rfl
  | space hb _ ih => rw [after_cons, next_space hb, ih]
  | comment hbody _ ih =>
    rw [after_append, after_cons, after_cons]
    have hcomment : code.next Byte.hash = comment := rfl
    have hcode : comment.next Byte.newline = code := rfl
    rw [hcomment, after_eq_self (next_comment hbody), hcode, ih]

/-- What a program can end with leads from code to no literal, but perhaps to a comment. -/
theorem inLiteral_after_endLayout {t : Text} (h : EndLayout t) :
    (code.after t).inLiteral = false := by
  cases h with
  | closed h =>
    rw [after_layout h]
    rfl
  | pending h hbody =>
    have hcomment : code.next Byte.hash = comment := rfl
    rw [after_append, after_layout h, after_cons, hcomment, after_eq_self (next_comment hbody)]
    rfl

/-- The `body` of a literal does not lead out of it. -/
theorem after_escaped {body content : Text} (h : Escaped body content) :
    literal.after body = literal := by
  induction h with
  | nil => rfl
  | @plain b _ _ hquote hbackslash _ ih =>
    have hnext : literal.next b = literal := by simp [next, hquote, hbackslash]
    rw [after_cons, hnext, ih]
  | newline _ ih | tab _ ih | itself _ _ _ ih => exact ih

/-- The bytes of a string literal, with its quotes, lead from code to code. -/
theorem after_literal {body content : Text} (h : Escaped body content) :
    code.after (Byte.quote :: body ++ [Byte.quote]) = code := by
  rw [List.cons_append, after_cons, next_quote, after_append, after_escaped h]
  rfl

/-- The bytes of a token, whatever its `kind`, lead from code to code. -/
theorem after_span {kind : TokenKind} {text span : Text} (h : Spelling kind text span) :
    code.after span = code := by
  cases h with
  | number h => exact after_eq_self (next_numeral h)
  | keyword h | colorName h => exact after_eq_self (next_word h)
  | string h => exact after_literal h
  | leftParen | rightParen | comma => rfl
  | unknown _ hnone =>
    refine next_code ?_ ?_
    · rintro rfl
      exact hnone (by decide)
    · rintro rfl
      exact hnone (by decide)

end Context

/-! ## Literals that are left open -/

/-- A quote with the given texts before it and behind it opens a string literal, and no later quote
closes it: each of those is taken up by a backslash, since only that keeps a quote in a literal from
closing it. -/
structure OpensUnclosed (before behind : Text) : Prop where
  /-- The quote stands in code. -/
  opens : Context.code.after before = .code
  /-- No later quote stands in the literal itself. -/
  unclosed : ∀ inner rest, behind = inner ++ Byte.quote :: rest →
    Context.literal.after inner ≠ .literal

/-- A string literal of the program `source` is left open, by the quote between `before` and
`behind`. -/
def LeavesOpen (source : Text) : Prop :=
  ∃ before behind, source = before ++ Byte.quote :: behind ∧ OpensUnclosed before behind

/-- A literal that no quote `behind` closes (`h`) goes on to the end. -/
theorem Context.inLiteral_of_unclosed {behind : Text}
    (h : ∀ inner rest, behind = inner ++ Byte.quote :: rest → literal.after inner ≠ .literal) :
    (literal.after behind).inLiteral := by
  -- The last byte is taken off, since it stands in what the bytes before it lead to.
  induction behind using List.reverseRecOn with
  | nil => rfl
  | append_singleton behind b ih =>
    have hinside : (literal.after behind).inLiteral := ih fun inner rest hbehind =>
      h inner (rest ++ [b]) (by rw [hbehind, List.append_assoc, List.cons_append])
    have hquote := h behind []
    rw [after_append, after_cons, after_nil]
    cases hc : literal.after behind with
    | code | comment => simp [hc, inLiteral] at hinside
    | escape => rfl
    | literal =>
      have hb : b ≠ Byte.quote := by
        rintro rfl
        exact hquote rfl hc
      by_cases hbackslash : b = Byte.backslash
      · simp [next, hbackslash, Byte.backslash, Byte.quote, inLiteral]
      · simp [next, hb, hbackslash, inLiteral]

/-- A program that leaves a literal open ends in that literal. -/
theorem LeavesOpen.inLiteral {source : Text} (h : LeavesOpen source) :
    (Context.code.after source).inLiteral := by
  obtain ⟨before, behind, rfl, hopens, hunclosed⟩ := h
  rw [Context.after_append, hopens, Context.after_cons, Context.next_quote]
  exact Context.inLiteral_of_unclosed hunclosed

/-- A byte `b` other than a quote stands in front of whatever leads to a quote, so it is the first
byte of `inner`. -/
theorem exists_eq_cons_of_cons_eq_append {b : Byte} {tail inner rest : Text} (hb : b ≠ Byte.quote)
    (h : b :: tail = inner ++ Byte.quote :: rest) :
    ∃ inner', inner = b :: inner' ∧ tail = inner' ++ Byte.quote :: rest := by
  rcases List.cons_eq_append_iff.mp h with ⟨-, hquote⟩ | hinner
  · exact absurd (List.cons.inj hquote).1.symm hb
  · exact hinner

/-- If `quoted?` cannot read the content of a literal, every quote in `body` is taken up by a
backslash. -/
theorem Lexeme.after_of_quoted?_eq_none {body : Text} (h : quoted? body = none) :
    ∀ inner rest, body = inner ++ Byte.quote :: rest → Context.literal.after inner ≠ .literal := by
  fun_induction quoted? body with
  | case1 => simp
  | case2 b rest hquote => cases h
  | case3 b hquote hbackslash =>
    intro inner rest hbody
    obtain ⟨inner', -, hnil⟩ := exists_eq_cons_of_cons_eq_append (by simpa using hquote) hbody
    simp at hnil
  | case4 b hquote hbackslash e rest ih =>
    intro inner rest' hbody
    obtain ⟨inner, rfl, hafter⟩ := exists_eq_cons_of_cons_eq_append (by simpa using hquote) hbody
    obtain rfl := eq_of_beq hbackslash
    -- The byte behind the backslash may be the quote itself, which is taken up then.
    rcases List.cons_eq_append_iff.mp hafter with ⟨rfl, -⟩ | ⟨inner, rfl, hrest⟩
    · exact Context.noConfusion
    · exact ih (Option.map_eq_none_iff.mp h) inner rest' hrest
  | case5 b rest hquote hbackslash ih =>
    intro inner rest' hbody
    obtain ⟨inner, rfl, hrest⟩ := exists_eq_cons_of_cons_eq_append (by simpa using hquote) hbody
    have hnext : Context.literal.next b = .literal := by
      simp only [Context.next, if_neg hquote, if_neg hbackslash]
    rw [Context.after_cons, hnext]
    exact ih (Option.map_eq_none_iff.mp h) inner rest' hrest

/-! ## Reading goes along with the contexts -/

/-- What is read on the way from `c` to `last` leads from code to code, as tokens and layout do. -/
theorem Cursor.Reads.exists_code {c last : Cursor} {own : List Token} (h : c.Reads own last) :
    ∃ front, c.rest = front ++ last.rest ∧ Context.code.after front = .code := by
  induction h with
  | nil => exact ⟨[], rfl, rfl⟩
  | cons hscan hkind _ ih =>
    obtain ⟨front, hrest, hcode⟩ := ih
    rcases scan_spec hscan with ⟨rfl, -⟩ | ⟨piece, rfl, hbytes, hfits, -⟩
    · exact absurd rfl hkind
    · refine ⟨piece.text ++ front, by rw [hbytes, hrest, List.append_assoc], ?_⟩
      rw [Piece.text, Context.after_append, Context.after_append, Context.after_layout hfits.gap,
        Context.after_span hfits.spelling, hcode]

/-- Reading from `c` gives no more tokens than there are bytes, and the end marker. -/
theorem Cursor.length_scanAll_le {c : Cursor} {ts : List Token} (h : c.scanAll.1 = .ok ts) :
    ts.length ≤ c.rest.length + 1 := by
  induction c using scanAll.induct generalizing ts with
  | case1 c e c' hscan =>
    rw [scanAll_of_error hscan] at h
    cases h
  | case2 c t c' hscan hend =>
    rw [scanAll_of_endOfInput hscan hend] at h
    obtain rfl := Except.ok.inj h
    simp
  | case3 c t c' hscan hend hlt _ _ _ ih =>
    rw [scanAll_of_token hscan hend] at h
    obtain ⟨ts', hts', rfl⟩ := Program.map_eq_ok_iff.mp h
    -- The token that was read took at least one byte, by `scan_rest_lt`.
    have hle := ih hts'
    rw [List.length_cons]
    omega

namespace Token

variable {source : Text}

/-- A program whose tokens are read ends outside of literals. -/
theorem inLiteral_of_ok {ts : List Token} (h : ofSource source = .ok ts) :
    (Context.code.after source).inLiteral = false := by
  obtain ⟨own, last, hreads, hall, hlast⟩ := exists_reads source
  obtain ⟨front, hsource, hcode⟩ := hreads.exists_code
  have hbytes : source = front ++ last.rest := hsource
  rcases hlast with hlayout | ⟨e, c', herror⟩
  · rw [hbytes, Context.after_append, hcode]
    exact Context.inLiteral_after_endLayout hlayout
  · rw [h, Cursor.scanAll_of_error herror] at hall
    cases hall

/-- A program the tokens of which are refused leaves a literal open. -/
theorem leavesOpen_of_error {e : LexicalError} (h : ofSource source = .error e) :
    LeavesOpen source := by
  obtain ⟨own, last, hreads, hall, hlast⟩ := exists_reads source
  obtain ⟨front, hsource, hcode⟩ := hreads.exists_code
  have hbytes : source = front ++ last.rest := hsource
  rcases hlast with hlayout | ⟨e', c', herror⟩
  · rw [h, Cursor.scanAll_of_endOfInput (Cursor.scan_of_endLayout hlayout) rfl] at hall
    cases hall
  · -- Reading fails at a quote behind layout, and that starts in code.
    obtain ⟨⟨gap, body, hrest, hgap, hopen⟩, -, -⟩ := Cursor.scan_error_spec herror
    refine ⟨front ++ gap, body, by rw [hbytes, hrest, List.append_assoc], ?_, ?_⟩
    · rw [Context.after_append, hcode, Context.after_layout hgap]
    · exact Lexeme.after_of_quoted?_eq_none (Lexeme.quoted?_eq_none_iff.mpr hopen)

/-- The place at the end of a program that leaves a literal open holds the exact counts, if the
program is below `2^32` bytes: its quote is none of its line feeds. -/
theorem counts_of_leavesOpen (h : LeavesOpen source) (hlength : source.length < UInt32.size) :
    (Position.start.after source).Counts source := by
  obtain ⟨before, behind, rfl, -⟩ := h
  have hbefore : before.count Byte.newline ≤ before.length := List.count_le_length
  have hbehind : behind.count Byte.newline ≤ behind.length := List.count_le_length
  have hcount : (before ++ Byte.quote :: behind).count Byte.newline =
      before.count Byte.newline + behind.count Byte.newline := by
    rw [List.count_append, List.count_cons_of_ne (by decide)]
  refine Position.counts_start_after ?_ hlength
  rw [List.length_append, List.length_cons] at hlength
  omega

/-- The tokens of a program are refused exactly if it leaves a string literal open. The place that
is reported is the end of the program, found by counting: one more than its line feeds, and the
bytes after the last of them. Every other program has its tokens, at most one more than bytes. -/
theorem refused_iff_leavesOpen (source : Text) :
    ((∃ e, ofSource source = .error e) ↔ LeavesOpen source) ∧
    (∀ e, ofSource source = .error e →
      e.position = ⟨.ofNat (1 + source.count Byte.newline), .ofNat (Text.column source)⟩ ∧
        (source.length < UInt32.size → e.position.Counts source)) ∧
    (¬ LeavesOpen source → ∃ ts, ofSource source = .ok ts ∧ ts.length ≤ source.length + 1) := by
  refine ⟨⟨?_, ?_⟩, ?_, ?_⟩
  · rintro ⟨e, h⟩
    exact leavesOpen_of_error h
  · -- The tokens are read or refused, and if they were read, the program would end outside of
    -- literals.
    intro hopen
    cases h : ofSource source with
    | error e => exact ⟨e, rfl⟩
    | ok ts =>
      have hend := inLiteral_of_ok h
      rw [hopen.inLiteral] at hend
      cases hend
  · intro e h
    obtain ⟨_, _, _, _, -, rfl, -⟩ := exists_isBroken_of_error h
    exact ⟨Position.start_after source, counts_of_leavesOpen (leavesOpen_of_error h)⟩
  · intro hclosed
    cases h : ofSource source with
    | error e => exact absurd (leavesOpen_of_error h) hclosed
    | ok ts => exact ⟨ts, rfl, Cursor.length_scanAll_le h⟩

/-- Two programs over two lines with a quote in a comment, and a number sign and a quote in a string
literal. The first one goes on with a literal that ends behind a backslash, and its end is the place
that is reported. The second one has a single token. -/
theorem refused_behind_backslash :
    let opened := ascii "# \"\n\"#\\\"\" \"a\\"
    let closed := ascii "# \"\n\"#\\\"\""
    LeavesOpen opened ∧ opened.length < UInt32.size ∧
      ofSource opened = .error ⟨⟨2, 9⟩⟩ ∧ (⟨2, 9⟩ : Position).Counts opened ∧
      ¬ LeavesOpen closed ∧ ∃ ts, ofSource closed = .ok ts ∧ ts.length ≤ closed.length + 1 := by
  intro opened closed
  have hlength : opened.length < UInt32.size := by decide
  have hopened : ofSource opened = .error ⟨⟨2, 9⟩⟩ := by decide +kernel
  have hclosed : ¬ LeavesOpen closed := by
    rw [← (refused_iff_leavesOpen closed).1]
    -- The text is read, so by the equivalence it leaves no literal open.
    rintro ⟨e, h⟩
    have hok : (ofSource closed).isOk := by decide +kernel
    rw [h] at hok
    cases hok
  exact ⟨(refused_iff_leavesOpen opened).1.mp ⟨_, hopened⟩, hlength, hopened,
    ((refused_iff_leavesOpen opened).2.1 _ hopened).2 hlength, hclosed,
    (refused_iff_leavesOpen closed).2.2 hclosed⟩

end Token

end Sketch
