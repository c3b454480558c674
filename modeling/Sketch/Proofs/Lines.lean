import Sketch.Proofs.Refusal
import Sketch.Proofs.Relocation
import Sketch.Proofs.Stages

/-!
# Programs can be put one below the other

`Program.read_joined` shows that a program that is accepted, a line feed, and a second program are
read and run as the two programs one after the other. The second one starts further down, and that
shows in its places only.

A line feed ends every lexeme (`Lexeme.read?_append_newline`) and every comment
(`EndLayout.append_newline`), so the tokens of the first program are read as they are without the
second (`Cursor.scan_extend`), and the cursor then comes to the second in place of the end marker
(`Cursor.scanAll_extend`). From there on the tokens are those of the second program, further down
(`Token.ofSource_append_newline`). The statements of the second program are read after those of the
first as they are at the start (`Program.ofTokens_append`), and they are the same further down
(`Program.ofTokens_relocate`).
-/

namespace Sketch

/-! ## A line feed ends what stands before it -/

namespace Lexeme

/-- A run of bytes with `p`, where `p` excludes the line feed (`hp`), ends in front of a line feed,
whatever `more` follows. -/
theorem takeWhile_append_newline {p : Byte → Bool} (hp : p Byte.newline = false) (t more : Text) :
    (t ++ Byte.newline :: more).takeWhile p = t.takeWhile p := by
  induction t with
  | nil => simp [hp]
  | cons b t ih =>
    rw [List.cons_append, List.takeWhile_cons, List.takeWhile_cons, ih]

/-- What follows such a run in `t` is followed by the line feed and by `more`. -/
theorem dropWhile_append_newline {p : Byte → Bool} (hp : p Byte.newline = false) (t more : Text) :
    (t ++ Byte.newline :: more).dropWhile p = t.dropWhile p ++ Byte.newline :: more := by
  induction t with
  | nil => simp [hp]
  | cons b t ih =>
    rw [List.cons_append, List.dropWhile_cons, List.dropWhile_cons, ih]
    split <;> rfl

/-- A number ends in front of a line feed, so that `numberTail` does not depend on what follows. -/
theorem numberTail_append_newline (first : Byte) (t more : Text) :
    numberTail first (t ++ Byte.newline :: more) = numberTail first t := by
  have hdigit : Byte.isDigit Byte.newline = false := rfl
  have hdigits : ∀ t : Text, digits (t ++ Byte.newline :: more) = digits t := fun t =>
    takeWhile_append_newline hdigit t more
  unfold numberTail
  rw [hdigits, dropWhile_append_newline hdigit]
  cases t.dropWhile Byte.isDigit with
  | nil => rfl
  | cons b fraction =>
    rw [List.cons_append]
    simp only [hdigits]

/-- A string literal that is closed does not depend on what follows it: `quoted?` reads `t` and
`t ++ more` alike. -/
theorem quoted?_append {t more : Text} {r : Text × Text} (h : quoted? t = some r) :
    quoted? (t ++ more) = some r := by
  fun_induction quoted? t generalizing r with
  | case1 => cases h
  | case2 b rest hquote =>
    rw [List.cons_append, quoted?.eq_def]
    simpa only [if_pos hquote] using h
  | case3 => cases h
  -- A backslash takes the byte behind it along, so it is the induction of the function that is
  -- used.
  | case4 b hquote hbackslash e rest ih =>
    obtain ⟨inner, hinner, rfl⟩ := Option.map_eq_some_iff.mp h
    rw [List.cons_append, List.cons_append, quoted?.eq_def]
    simp only [if_neg hquote, if_pos hbackslash, ih hinner, Option.map_some]
  | case5 b rest hquote hbackslash ih =>
    obtain ⟨inner, hinner, rfl⟩ := Option.map_eq_some_iff.mp h
    rw [List.cons_append, quoted?.eq_def]
    simp only [if_neg hquote, if_neg hbackslash, ih hinner, Option.map_some]

/-- A lexeme ends in front of a line feed, unless it is a string literal, which is closed before. So
`more` behind the line feed has no part in it. -/
theorem read?_append_newline {first : Byte} {rest : Text} {l : Lexeme}
    (h : read? first rest = some l) (more : Text) :
    read? first (rest ++ Byte.newline :: more) = some l := by
  have hhead : (rest ++ Byte.newline :: more).head?.any Byte.isDigit =
      rest.head?.any Byte.isDigit := by
    cases rest <;> rfl
  have hword : Byte.isWordByte Byte.newline = false := rfl
  unfold read? at h ⊢
  rw [hhead, numberTail_append_newline, takeWhile_append_newline hword]
  -- Numbers, literals, words and single bytes each end before the line feed.
  split
  · rwa [if_pos ‹_›] at h
  · rw [if_neg ‹_›] at h
    split
    · rw [if_pos ‹_›] at h
      obtain ⟨r, hr, rfl⟩ := Option.map_eq_some_iff.mp h
      rw [quoted?_append hr]
      rfl
    · rwa [if_neg ‹_›] at h

end Lexeme

/-- Layout `t` after layout `s` is layout. -/
theorem Layout.append {s t : Text} (hs : Layout s) (ht : Layout t) : Layout (s ++ t) := by
  induction hs with
  | nil => exact ht
  | space hb _ ih => exact .space hb ih
  | comment hbody _ ih =>
    rw [List.append_assoc, List.cons_append]
    exact .comment hbody ih

/-- A line feed after what a program ends with ends its last comment, so that all of it is layout.
-/
theorem EndLayout.append_newline {t : Text} (h : EndLayout t) : Layout (t ++ [Byte.newline]) := by
  cases h with
  | closed h => exact h.append (.space (by decide) .nil)
  | pending h hbody =>
    rw [List.append_assoc]
    exact h.append (.comment hbody .nil)

namespace Cursor

/-- Layout in front of something (`h`) ends where it did, whatever `more` is put behind. -/
theorem afterLayout_append_of_ne_nil {inComment : Bool} {p : Position} {t : Text}
    (h : (afterLayout inComment p t).rest ≠ []) (more : Text) :
    afterLayout inComment p (t ++ more) =
      ⟨(afterLayout inComment p t).rest ++ more, (afterLayout inComment p t).position⟩ := by
  induction t generalizing inComment p with
  | nil => exact absurd rfl h
  | cons b t ih =>
    simp only [List.cons_append, afterLayout] at h ⊢
    -- Within a comment, at white space and at a number sign there is more to skip, and elsewhere
    -- the layout ends.
    split
    · rw [if_pos ‹_›] at h
      exact ih h
    · rw [if_neg ‹_›] at h
      split
      · rw [if_pos ‹_›] at h
        exact ih h
      · rw [if_neg ‹_›] at h
        split
        · rw [if_pos ‹_›] at h
          exact ih h
        · rfl

/-- The cursor `c` with a line feed and `more` behind what it has ahead. -/
def extend (c : Cursor) (more : Text) : Cursor := ⟨c.rest ++ Byte.newline :: more, c.position⟩

/-- The cursor past what `c` has ahead and a line feed, with `more` ahead then. -/
def pass (c : Cursor) (more : Text) : Cursor :=
  ⟨more, c.position.after (c.rest ++ [Byte.newline])⟩

/-- A token `t` in front of a line feed is read as it is at the end, if it is not the end marker. -/
theorem scan_extend {c c' : Cursor} {t : Token} (h : c.scan = (.ok t, c'))
    (ht : t.kind ≠ .endOfInput) (more : Text) :
    (c.extend more).scan = (.ok t, c'.extend more) := by
  have hskip : c.skipLayout.rest ≠ [] := fun hnil => by
    simp only [scan, hnil, Prod.mk.injEq, Except.ok.injEq] at h
    exact ht (h.1 ▸ rfl)
  have hextend : (c.extend more).skipLayout = c.skipLayout.extend more :=
    afterLayout_append_of_ne_nil hskip _
  obtain ⟨gap, hgap⟩ : ∃ gap, Skips c.position c.rest c.skipLayout gap :=
    exists_skips c.position c.rest
  unfold scan at h ⊢
  rw [hextend]
  generalize c.skipLayout = skipped at h hskip hgap
  obtain ⟨rest, p⟩ := skipped
  obtain ⟨b, rest, rfl⟩ := List.exists_cons_of_ne_nil hskip
  obtain ⟨hspace, hhash⟩ := hgap.head b rfl
  cases hread : Lexeme.read? b rest with
  | none => simp [hread] at h
  | some l =>
    obtain ⟨rfl, rfl⟩ : ⟨l.kind, l.text, p⟩ = t ∧
        (Cursor.mk (b :: rest) p).advance (l.tail.length + 1) = c' := by
      simpa [hread] using h
    obtain ⟨-, after, rfl, -⟩ := Lexeme.read?_spec hspace hhash hread
    have hadvance : ∀ after, (Cursor.mk (b :: (l.tail ++ after)) p).advance (l.tail.length + 1) =
        ⟨after, p.after (b :: l.tail)⟩ := fun after => advance_append (b :: l.tail) after p
    -- The token is the same, and so is the number of its bytes, over which the cursor advances.
    have hmore := Lexeme.read?_append_newline hread more
    rw [List.append_assoc] at hmore
    simp only [extend, List.cons_append, List.append_assoc, hmore, hadvance]

/-- The end of a program in front of a line feed is passed with it: the next token is one of `more`.
-/
theorem scan_extend_of_endLayout {c : Cursor} (h : EndLayout c.rest) (more : Text) :
    (c.extend more).scan = (c.pass more).scan := by
  have hskip : (c.extend more).skipLayout = (c.pass more).skipLayout := by
    have happend := afterLayout_append h.append_newline c.position more
    rwa [List.append_assoc, List.singleton_append] at happend
  rw [scan, scan, hskip]

/-- Cursors that read the same next token read the same tokens to the end. -/
theorem scanAll_congr {c d : Cursor} (h : c.scan = d.scan) : c.scanAll = d.scanAll := by
  match hd : d.scan with
  | (.error e, c') => rw [scanAll_of_error hd, scanAll_of_error (h.trans hd)]
  | (.ok t, c') =>
    by_cases ht : t.kind = .endOfInput
    · rw [scanAll_of_endOfInput hd ht, scanAll_of_endOfInput (h.trans hd) ht]
    · rw [scanAll_of_token hd ht, scanAll_of_token (h.trans hd) ht]

/-- The tokens up to a line feed are read as they are at the end, and then the tokens of `more`, in
place of the end marker. -/
theorem scanAll_extend {c : Cursor} {ts : List Token} (h : c.scanAll.1 = .ok ts) :
    ∃ own marker, ts = own ++ [marker] ∧ ∀ more,
      (c.extend more).scanAll.1 = (c.pass more).scanAll.1.map (own ++ ·) := by
  induction c using scanAll.induct generalizing ts with
  | case1 c e c' hc =>
    rw [scanAll_of_error hc] at h
    cases h
  | case2 c t c' hc ht =>
    -- The end marker is not read, since the line feed is passed with the layout before it.
    rw [scanAll_of_endOfInput hc ht] at h
    obtain rfl := Except.ok.inj h
    rcases scan_spec hc with ⟨-, hlayout⟩ | ⟨piece, rfl, -, hfits, -⟩
    · refine ⟨[], t, rfl, fun more => ?_⟩
      rw [scanAll_congr (scan_extend_of_endLayout hlayout more)]
      cases (c.pass more).scanAll.1 <;> rfl
    · exact absurd ht hfits.spelling.kind_ne
  | case3 c t c' hc ht _ _ _ _ ih =>
    rw [scanAll_of_token hc ht] at h
    obtain ⟨ts', hts', rfl⟩ := Program.map_eq_ok_iff.mp h
    obtain ⟨own, marker, rfl, hmore⟩ := ih hts'
    refine ⟨t :: own, marker, rfl, fun more => ?_⟩
    have hpass : c'.pass more = c.pass more := by
      rcases scan_spec hc with ⟨rfl, -⟩ | ⟨piece, rfl, hbytes, -, -, hplace⟩
      · exact absurd rfl ht
      · rw [pass, pass, hbytes, hplace, ← Position.after_append, List.append_assoc]
    rw [scanAll_of_token (scan_extend hc ht more) ht, hmore more, hpass]
    cases (c.pass more).scanAll.1 <;> rfl

end Cursor

/-! ## The place after a line feed -/

namespace Position

/-- The place so many `lines` further down, in the same column. -/
def down (lines : Nat) (p : Position) : Position := ⟨p.line + .ofNat lines, p.column⟩

/-- Further down, places go on from byte to byte as they do above: `down lines` is a shift. -/
theorem isShift_down (lines : Nat) : IsShift (down lines) := by
  intro p b
  unfold next
  split
  · simp only [down, Position.mk.injEq, and_true]
    ac_rfl
  · rfl

/-- After a text `t` and a line feed there is the start, as many lines further down as `t` has line
feeds, and one more. -/
theorem start_after_newline (t : Text) :
    start.after (t ++ [Byte.newline]) = start.down (t.count Byte.newline + 1) := by
  rw [start_after, Text.column_append_newline, List.count_append, List.count_singleton_self,
    UInt32.ofNat_add]
  rfl

end Position

/-- The tokens of a program are read line by line: a line feed and a `second` program follow the
tokens of `first` with the tokens of `second`, further down. -/
theorem Token.ofSource_append_newline {first : Text} {own : List Token} {marker : Token}
    (h : Token.ofSource first = .ok (own ++ [marker])) (second : Text) :
    Token.ofSource (first ++ Byte.newline :: second) =
      ((Token.ofSource second).map fun ts =>
        own ++ ts.map (relocate (.down (first.count Byte.newline + 1)))).mapError
          (.relocate (.down (first.count Byte.newline + 1))) := by
  obtain ⟨own', marker', hts, hmore⟩ := Cursor.scanAll_extend h
  obtain ⟨rfl, -⟩ := List.append_inj' hts rfl
  -- Behind the newline the cursor stands at the start of a line, which is the start moved down.
  have hpass : (Cursor.ofSource first).pass second =
      (Cursor.ofSource second).relocate (.down (first.count Byte.newline + 1)) := by
    rw [Cursor.pass, Cursor.relocate, Cursor.ofSource, Position.start_after_newline]
    rfl
  have hread := hmore second
  rw [hpass, Cursor.scanAll_relocate (Position.isShift_down _)] at hread
  refine hread.trans ?_
  rw [Token.ofSource]
  cases (Cursor.ofSource second).scanAll.1 <;> rfl

namespace Program

variable {ts : List Token} {cs : List Command}

/-- The last place of two lists of tokens is that of the second, `ts`, if it is not empty. -/
theorem lastPosition_append (front : List Token) (hts : ts ≠ []) :
    lastPosition (front ++ ts) = lastPosition ts := by
  rw [lastPosition, lastPosition, List.getLast?_append_of_ne_nil _ hts]

/-- After the tokens `front` of a program that is accepted, `ofTokens` goes on as it does at the
start. -/
theorem ofTokens_append {front : List Token} (hend : ∀ t ∈ front, t.kind ≠ .endOfInput)
    (h : ofTokens front = .ok cs) (ts : List Token) :
    ofTokens (front ++ ts) = (ofTokens ts).map (cs ++ ·) := by
  rw [ofTokens, statements_append_of_ok h hend, ofTokens]
  cases ts with
  | nil =>
    rw [statements_nil, statements_nil]
  | cons t ts => rw [lastPosition_append front (List.cons_ne_nil t ts)]

/-- A program is the same elsewhere: tokens moved by `g` denote commands moved by `g`, or an error
moved by `g`. -/
theorem ofTokens_relocate (g : Position → Position) (ts : List Token) :
    ofTokens (ts.map (Token.relocate g)) =
      ((ofTokens ts).map (List.map (Command.relocate g))).mapError (SyntaxError.relocate g) := by
  rw [ofTokens, ofTokens, ← statements_relocate]
  -- An empty program has no last place, but then no place is reported.
  cases hlast : ts.getLast? with
  | none =>
    obtain rfl := List.getLast?_eq_none_iff.mp hlast
    rw [List.map_nil, statements_nil, statements_nil]
  | some t =>
    have hplace : lastPosition (ts.map (Token.relocate g)) = g (lastPosition ts) := by
      simp [lastPosition, hlast, Token.relocate]
    rw [hplace]

/-- A program is read line by line: behind `first` and a line feed, `second` is read as it is alone,
further down. -/
theorem read_append_newline {marked : Bool} {first : Text} (h : read marked first = .ok cs)
    (second : Text) :
    read marked (first ++ Byte.newline :: second) =
      ((read marked second).map fun ds =>
        cs ++ ds.map (.relocate (.down (first.count Byte.newline + 1)))).mapError
          (.relocate (.down (first.count Byte.newline + 1))) := by
  generalize hg : Position.down (first.count Byte.newline + 1) = g
  cases hfirst : Token.ofSource first with
  | error e => simp [read, hfirst] at h
  | ok ts =>
    obtain ⟨own, rfl, hend, -⟩ := Token.exists_eq_of_ofSource hfirst
    have hown : ofTokens own = .ok cs := by
      rwa [read_eq_ok_iff, (read_of_ofSource hfirst).1, mapError_eq_ok_iff] at h
    rw [read, Token.ofSource_append_newline hfirst, hg, read]
    cases hsecond : Token.ofSource second with
    | error e => rfl
    | ok us =>
      -- The end marker that is kept or dropped is that of the second program.
      obtain ⟨own', rfl, -, -⟩ := Token.exists_eq_of_ofSource hsecond
      generalize (⟨.endOfInput, [], Position.start.after second⟩ : Token) = marker
      have hkept : (if marked then own ++ (own' ++ [marker]).map (Token.relocate g)
            else (own ++ (own' ++ [marker]).map (Token.relocate g)).dropLast) =
          own ++ (if marked then own' ++ [marker] else (own' ++ [marker]).dropLast).map
            (Token.relocate g) := by
        cases marked <;> simp [← List.append_assoc]
      simp only [Except.map, Except.mapError, hkept]
      rw [ofTokens_append hend hown, ofTokens_relocate]
      cases ofTokens (if marked then own' ++ [marker] else (own' ++ [marker]).dropLast) <;> rfl

end Program

/-! ## What the message of a refusal says beside its place -/

namespace Diagnostic

/-- The place that a diagnostic reports. -/
def position : Diagnostic → Position
  | lexical e => e.position
  | grammatical e => e.position

/-- The words in front of the place, which tell the two kinds of errors apart. -/
def opening : Diagnostic → Text
  | lexical _ => ascii "Lexical error at "
  | grammatical _ => ascii "Parse error at "

/-- What a diagnostic says after the place. -/
def reason : Diagnostic → Text
  | lexical _ => ascii ": Unterminated string"
  | grammatical e => ascii ": " ++ Text.beforeNul e.problem.text

/-- The message of `d` is put together from its `opening`, its place and its `reason`. -/
theorem message_eq (d : Diagnostic) : d.message = d.opening ++ d.position.text ++ d.reason := by
  cases d with
  | lexical e => rfl
  | grammatical e =>
    rw [message, Program.message_eq, List.append_assoc]
    rfl

/-- Elsewhere, moved by `g`, only the place in the message of `d` is another. -/
theorem message_relocate (g : Position → Position) (d : Diagnostic) :
    (d.relocate g).message = d.opening ++ (g d.position).text ++ d.reason := by
  rw [message_eq]
  cases d <;> rfl

end Diagnostic

/-! ## Running two programs as one -/

namespace Session

variable {σ : Type} [Surface σ] {cs ds : List Command}

/-- Commands `cs` are carried out the same wherever their statements stand. -/
theorem executeAll_relocate (g : Position → Position) (s : Session σ) (cs : List Command) :
    s.executeAll (cs.map (.relocate g)) = s.executeAll cs := by
  induction cs generalizing s with
  | nil => rfl
  | cons c cs ih =>
    rw [List.map_cons, executeAll_cons, executeAll_cons, ih]
    rfl

/-- Running two programs one after the other is carrying out the commands of both, on one session
`s`. -/
theorem run_append_newline {first second : Text} (hfirst : Program.read false first = .ok cs)
    (hsecond : Program.read false second = .ok ds) (s : Session σ) :
    (s.run (first ++ Byte.newline :: second)).1.results =
        (s.run first).1.results ++ ((s.run first).2.run second).1.results ∧
      (s.run (first ++ Byte.newline :: second)).2 = ((s.run first).2.run second).2 := by
  have hwhole := Program.read_append_newline hfirst second
  rw [hsecond] at hwhole
  obtain ⟨hresults, hlast⟩ := run_of_read hwhole s
  obtain ⟨hresults₁, hlast₁⟩ := run_of_read hfirst s
  obtain ⟨hresults₂, hlast₂⟩ := run_of_read hsecond (s.run first).2
  rw [hlast₁] at hresults₂ hlast₂
  rw [hresults, hlast, hlast₁, hresults₁, hresults₂, hlast₂, executeAll_append, executeAll_relocate]
  exact ⟨rfl, rfl⟩

end Session

/-- A program that is accepted, a line feed, and a second program are read as the two programs one
after the other, where the second starts as many lines further down as the first has. If the second
is accepted, so is the whole, and running the whole leaves the session and the results that running
the two leaves. If the second is refused, so is the whole, and the message differs in its place
only. -/
theorem Program.read_joined {marked : Bool} {first : Text} {cs : List Command}
    (h : read marked first = .ok cs) (second : Text) :
    let whole := first ++ Byte.newline :: second
    let lines := first.count Byte.newline + 1
    (∀ ds, read marked second = .ok ds →
      read marked whole = .ok (cs ++ ds.map (.relocate (.down lines))) ∧
      ∀ {σ : Type} [Surface σ] (s : Session σ),
        (s.run whole).1.results =
            (s.run first).1.results ++ ((s.run first).2.run second).1.results ∧
          (s.run whole).2 = ((s.run first).2.run second).2) ∧
    (∀ e, read marked second = .error e →
      read marked whole = .error (e.relocate (.down lines)) ∧
      e.message = e.opening ++ e.position.text ++ e.reason ∧
      (e.relocate (.down lines)).message =
        e.opening ++ (e.position.down lines).text ++ e.reason) := by
  intro whole lines
  -- Both parts are read off one equation between the readings of the whole and of the second text.
  have hwhole := read_append_newline h second
  refine ⟨?_, ?_⟩
  · intro ds hds
    rw [hds] at hwhole
    rw [read_eq_ok_iff] at h hds
    exact ⟨hwhole, fun s => Session.run_append_newline h hds s⟩
  · intro e he
    rw [he] at hwhole
    exact ⟨hwhole, e.message_eq, e.message_relocate _⟩

/-- The first program ends in a comment that no line feed ends. One second program clears the
canvas, and the other one ends too early. -/
theorem Program.read_joined_to_comment :
    let first := ascii "pen up # then"
    read true first = .ok [⟨.penUp, ⟨1, 0⟩⟩] ∧
      (read true (ascii "\nclear") = .ok [⟨.clear, ⟨2, 0⟩⟩] ∧
        read true (first ++ Byte.newline :: ascii "\nclear") =
          .ok [⟨.penUp, ⟨1, 0⟩⟩, ⟨.clear, ⟨3, 0⟩⟩]) ∧
      read true (ascii "move 1") = .error (.grammatical ⟨.numberExpected .move, ⟨1, 6⟩⟩) ∧
        read true (first ++ Byte.newline :: ascii "move 1") =
          .error (.grammatical ⟨.numberExpected .move, ⟨2, 6⟩⟩) := by
  intro first
  have hfirst : read true first = .ok [⟨.penUp, ⟨1, 0⟩⟩] := by decide +kernel
  have hclear : read true (ascii "\nclear") = .ok [⟨.clear, ⟨2, 0⟩⟩] := by decide +kernel
  have hmove : read true (ascii "move 1") =
      .error (.grammatical ⟨.numberExpected .move, ⟨1, 6⟩⟩) := by decide +kernel
  obtain ⟨haccepted, -⟩ := read_joined hfirst (ascii "\nclear")
  obtain ⟨-, hrefused⟩ := read_joined hfirst (ascii "move 1")
  exact ⟨hfirst, ⟨hclear, (haccepted _ hclear).1⟩, hmove, (hrefused _ hmove).1⟩

end Sketch
