import Sketch.Proofs.Quoting

/-!
# Which words are colors

Three places decide about the name of a color. A word becomes the token of a color if it is not
reserved and the table has it; a statement takes such a token, or a string literal; and a command
looks its name up in the table, in any case of letters, and takes black if it is not there.

`Session.colors_agree` shows that they agree. A word behind `set color` is accepted exactly if the
table has it in small letters, and then the color is that of the table, as it is for every literal
that is the word in any case of letters. So no word is drawn in black unless it is the name of
black. A literal of any other name is accepted and is black.
-/

namespace Sketch

/-- The session `s` with another `color` of its pen, and everything else as it is. -/
def Session.inColor {σ : Type} (s : Session σ) (color : Color) : Session σ :=
  { s with pen := { s.pen with color } }

/-- The program `source` sets the color to `color` and does nothing else, on any surface, and it
reports the `name`. -/
structure SetsColor (source name : Text) (color : Color) : Prop where
  accepted : ∀ marked, ∃ cs, Program.read marked source = .ok cs
  run_eq : ∀ {σ : Type} [Surface σ] (s : Session σ),
    s.run source = (.ran [.done (.colorSet name)], s.inColor color)

/-- The program `source` is refused for the `reason`, and running it on any surface changes nothing.
-/
structure IsRefused (source : Text) (reason : Diagnostic) : Prop where
  refused : ∀ marked cs, Program.read marked source ≠ .ok cs
  run_eq : ∀ {σ : Type} [Surface σ] (s : Session σ), s.run source = (.refused reason, s)

/-! ## The table -/

/-- A `name` in `Color.table` stands for the `color` beside it, and only the name of black stands
for black. -/
theorem Color.ofName_of_mem_table {name : Text} {color : Color} (h : (name, color) ∈ table) :
    ofName name = color ∧ (color = black ↔ name = ascii "black") := by
  have htable : ∀ entry ∈ table, ofName entry.1 = entry.2 ∧
      (entry.2 = black ↔ entry.1 = ascii "black") := by
    decide
  exact htable _ h

/-- A `word` becomes the token of a color exactly if `Color.table` has it in small letters: no name
in the table is reserved. -/
theorem TokenKind.ofWord_eq_colorName_iff {word : Text} :
    ofWord (Text.lower word) = .colorName ↔ Text.lower word ∈ Color.table.map Prod.fst := by
  have hdisjoint : ∀ name ∈ Color.table.map Prod.fst, isReserved name = false := by decide
  rw [← Color.isName_lower_iff]
  unfold ofWord
  split
  case isTrue hreserved =>
    refine iff_of_false TokenKind.noConfusion fun hname => ?_
    have hfree := hdisjoint _ (Color.isName_lower_iff.mp hname)
    rw [hreserved] at hfree
    cases hfree
  case isFalse => split <;> simp_all

/-- A `word` is never a string literal, whatever `TokenKind.ofWord` makes of it. -/
theorem TokenKind.ofWord_ne_string (word : Text) : ofWord word ≠ .string := by
  unfold ofWord
  split
  · exact TokenKind.noConfusion
  · split <;> exact TokenKind.noConfusion

/-! ## Words in other letters -/

/-- A byte `b` goes on with a word in one case of letters exactly if it does so in the other. -/
theorem Byte.isWordByte_lower (b : Byte) : b.lower.isWordByte = b.isWordByte := by
  by_cases hcapital : b.isCapital
  · have hletter : b.isLetter := by
      simp [isLetter, lower, hcapital, UInt8.le_iff_toNat_le, UInt8.toNat_add]
      simp [isCapital, UInt8.le_iff_toNat_le] at hcapital
      omega
    simp [isWordByte, isWordStart, hletter, isLetter_of_lower_eq hletter (lower_lower b)]
  · rw [lower, if_neg hcapital]

/-- A text `w'` that is a word `w` in another case of letters has only bytes of words, so neither a
quote nor a backslash. -/
theorem IsWord.isWordByte_of_alike {w w' : Text} (hword : IsWord w) (h : Text.alike w' w) :
    ∀ b ∈ w', b.isWordByte := by
  intro b hb
  have hmem : b.lower ∈ Text.lower w := by
    rw [← show Text.lower w' = Text.lower w from eq_of_beq h]
    exact List.mem_map_of_mem hb
  obtain ⟨b', hb', hlower⟩ := List.mem_map.mp hmem
  rw [← Byte.isWordByte_lower, ← hlower, Byte.isWordByte_lower]
  exact hword.isWordByte b' hb'

/-- A text `t` of bytes of words spells itself in a literal, as there is nothing in it to escape. -/
theorem Escaped.of_isWordByte {t : Text} (h : ∀ b ∈ t, b.isWordByte) : Escaped t t := by
  induction t with
  | nil => exact .nil
  | cons b t ih =>
    obtain ⟨hb, ht⟩ := List.forall_mem_cons.mp h
    refine .plain ?_ ?_ (ih ht)
    · rintro rfl
      exact absurd hb (by decide)
    · rintro rfl
      exact absurd hb (by decide)

/-! ## Programs that set the color -/

/-- A program with a single command that sets the color to `name` does that, and reports the `name`.
-/
theorem SetsColor.of_read {source name : Text} {place : Position}
    (h : ∀ marked, Program.read marked source = .ok [⟨.setColor name, place⟩]) :
    SetsColor source name (.ofName name) where
  accepted marked := ⟨_, h marked⟩
  run_eq s := by
    have hlayout : ¬ EndLayout source := by
      intro hlayout
      have hnone := Program.read_of_endLayout hlayout
      rw [h false] at hnone
      cases hnone
    rw [Session.run_of_not_endLayout hlayout, h false]
    rfl

/-- Behind `set color`, a word `w` that is a color name or a literal sets the color to what its text
stands for. -/
theorem SetsColor.of_word (w : Word) (hkind : w.kind = .colorName ∨ w.kind = .string) :
    SetsColor (ascii "set color " ++ w.span) w.text (.ofName w.text) :=
  .of_read (Token.read_set_color_word w hkind)

/-- Behind `set color`, a word `w` of any other kind is refused where it stands, in column 10 of the
first line. -/
theorem IsRefused.of_word (w : Word) (hkind : ¬ (w.kind = .colorName ∨ w.kind = .string)) :
    IsRefused (ascii "set color " ++ w.span) (.grammatical ⟨.colorNameExpected, ⟨1, 10⟩⟩) := by
  obtain ⟨p, htokens⟩ := Token.ofSource_set_color w
  let set : Token := ⟨.keyword, ascii "set", ⟨1, 0⟩⟩
  let rest : List Token := [⟨.keyword, ascii "color", ⟨1, 4⟩⟩, w.token ⟨1, 10⟩]
  have haction : ∀ last, Program.action last set.text rest =
      .error ⟨.colorNameExpected, ⟨1, 10⟩⟩ := by
    intro last
    have halike : Text.alike (ascii "color") (ascii "color") := by decide
    rw [Program.action_set ⟨rfl, rfl⟩]
    simp only [rest, Program.set, Word.token, hkind, halike]
    rfl
  -- The refusal of the statement is that of the program, since it is the first one.
  have hread : Program.read false (ascii "set color " ++ w.span) =
      .error (.grammatical ⟨.colorNameExpected, ⟨1, 10⟩⟩) := by
    rw [(Program.read_of_ofSource htokens).1]
    have hstatements := Program.statements_of_refusal rfl (haction ⟨1, 10⟩)
    exact congrArg (Except.mapError Diagnostic.grammatical) hstatements
  constructor
  case refused =>
    intro marked cs h
    rw [Program.read_eq_ok_iff, hread] at h
    cases h
  case run_eq => exact fun s => Session.run_of_refusal hread

/-- What is read as a color is what is drawn as one.

A word behind `set color` is accepted exactly if the table has it in small letters. Then running the
program sets the color beside it in the table and does nothing else, as it does with a literal of
the word in any case of letters, and the color is black only for the word `black`. Any other word is
refused where it stands. A text that is no name in the table in any case of letters can be written
as a literal, and however it is written, it is accepted and sets black. -/
theorem Session.colors_agree :
    (∀ w, IsWord w →
      (∀ marked, (∃ cs, Program.read marked (ascii "set color " ++ w) = .ok cs) ↔
        Text.lower w ∈ Color.table.map Prod.fst) ∧
      (∀ color, (Text.lower w, color) ∈ Color.table →
        SetsColor (ascii "set color " ++ w) (Text.lower w) color ∧
        (∀ w', Text.alike w' w → SetsColor (ascii "set color " ++ quotedBy w') w' color) ∧
        (color = .black ↔ Text.lower w = ascii "black")) ∧
      (Text.lower w ∉ Color.table.map Prod.fst →
        IsRefused (ascii "set color " ++ w) (.grammatical ⟨.colorNameExpected, ⟨1, 10⟩⟩))) ∧
    ∀ v, Text.lower v ∉ Color.table.map Prod.fst → (∃ body, Escaped body v) ∧
      ∀ body, Escaped body v → SetsColor (ascii "set color " ++ quotedBy body) v .black := by
  constructor
  · intro w hword
    -- A bare word is written without quotes, so its kind decides what becomes of it.
    let word : Word := ⟨.ofWord (Text.lower w), Text.lower w, w, .ofWord hword⟩
    have hkind : word.kind = .colorName ∨ word.kind = .string ↔
        Text.lower w ∈ Color.table.map Prod.fst := by
      rw [or_iff_left (TokenKind.ofWord_ne_string _)]
      exact TokenKind.ofWord_eq_colorName_iff
    have hrefused := fun hname => IsRefused.of_word word (mt hkind.mp hname)
    refine ⟨fun marked => ⟨?_, ?_⟩, ?_, hrefused⟩
    · rintro ⟨cs, hread⟩
      by_contra hname
      exact (hrefused hname).refused marked cs hread
    · intro hname
      exact (SetsColor.of_word word (hkind.mpr hname)).accepted marked
    · intro color hmem
      obtain ⟨hcolor, hblack⟩ := Color.ofName_of_mem_table hmem
      have hname : Text.lower w ∈ Color.table.map Prod.fst := List.mem_map_of_mem hmem
      have hsets : SetsColor (ascii "set color " ++ w) (Text.lower w) (.ofName (Text.lower w)) :=
        .of_word word (hkind.mpr hname)
      rw [hcolor] at hsets
      refine ⟨hsets, fun w' halike => ?_, hblack⟩
      -- Between quotes the same letters spell themselves, and their case does not matter to
      -- `Color.ofName`.
      have hbody := Escaped.of_isWordByte (hword.isWordByte_of_alike halike)
      have hsets' := SetsColor.of_word ⟨.string, w', quotedBy w', .string hbody⟩ (.inr rfl)
      have hsame : Color.ofName w' = color := by
        rw [← hcolor]
        exact Color.ofName_eq_of_alike (by rwa [Text.alike, Text.lower_lower])
      rwa [hsame] at hsets'
  · intro v hname
    -- A name that is not in the table is not refused between quotes, where it stands for black.
    refine ⟨⟨escape v, escaped_escape v⟩, fun body hbody => ?_⟩
    have hsets := SetsColor.of_word ⟨.string, v, quotedBy body, .string hbody⟩ (.inr rfl)
    have hblack : Color.ofName v = .black :=
      Color.ofName_of_not_isName (by rwa [← Color.isName_lower, Color.isName_lower_iff])
    rwa [hblack] at hsets

/-- A gray in two cases of letters, a reserved word, and a name that has a byte above 127 and a
quote in it. -/
theorem Session.colors_agree_on_gray :
    let gray : Color := ⟨0x80, 0x80, 0x80⟩
    let name := ascii "gr" ++ [0xE4, Byte.quote]
    let body := ascii "gr" ++ [0xE4, Byte.backslash, Byte.quote]
    IsWord (ascii "Grey") ∧ (Text.lower (ascii "Grey"), gray) ∈ Color.table ∧
      Text.alike (ascii "gREY") (ascii "Grey") ∧
      SetsColor (ascii "set color " ++ ascii "Grey") (ascii "grey") gray ∧
      SetsColor (ascii "set color " ++ quotedBy (ascii "gREY")) (ascii "gREY") gray ∧
      IsWord (ascii "Color") ∧ Text.lower (ascii "Color") ∉ Color.table.map Prod.fst ∧
      IsRefused (ascii "set color " ++ ascii "Color")
        (.grammatical ⟨.colorNameExpected, ⟨1, 10⟩⟩) ∧
      Text.lower name ∉ Color.table.map Prod.fst ∧ Escaped body name ∧
      SetsColor (ascii "set color " ++ quotedBy body) name .black := by
  intro gray name body
  have hgrey : IsWord (ascii "Grey") :=
    .intro (by decide) (List.all_eq_true.mp (by decide))
  have hcolor : IsWord (ascii "Color") :=
    .intro (by decide) (List.all_eq_true.mp (by decide))
  have hmem : (Text.lower (ascii "Grey"), gray) ∈ Color.table := by decide
  have halike : Text.alike (ascii "gREY") (ascii "Grey") := by decide
  have hreserved : Text.lower (ascii "Color") ∉ Color.table.map Prod.fst := by decide
  have hname : Text.lower name ∉ Color.table.map Prod.fst := by decide
  have hbody : Escaped body name :=
    .plain (by decide) (by decide) (.plain (by decide) (by decide)
      (.plain (by decide) (by decide) (.itself (by decide) (by decide) .nil)))
  obtain ⟨hset, hquoted, -⟩ := (colors_agree.1 _ hgrey).2.1 gray hmem
  exact ⟨hgrey, hmem, halike, hset, hquoted _ halike, hcolor, hreserved,
    (colors_agree.1 _ hcolor).2.2 hreserved, hname, hbody, (colors_agree.2 name hname).2 body hbody⟩

end Sketch
