import Sketch.Proofs.Grammar
import Sketch.Proofs.Spans
import Sketch.Session
import Sketch.Surface.Recording

/-!
# A program is read as a whole before it runs

`Program.read` reads the statements of a program from its tokens, with the end marker or without it.
`Session.run_eq_stages` shows that running a program is to read it and then to carry out its
commands: a program that is refused changes nothing, a program of layout alone has nothing to run,
and any other program leaves the session and the report that its commands leave.

The tokens of a program are its own and one end marker (`Token.exists_eq_of_ofSource`), and there
are none of its own exactly if the program is layout: layout is skipped to the end
(`Cursor.scan_of_endLayout`). The marker makes no difference to what is accepted
(`Program.read_eq_ok_iff`), since statements end before the first one.
-/

namespace Sketch

namespace Cursor

/-- The layout `gap` in front of a text `t` is skipped with the layout at the head of `t`. -/
theorem afterLayout_append {gap : Text} (h : Layout gap) (p : Position) (t : Text) :
    afterLayout false p (gap ++ t) = afterLayout false (p.after gap) t := by
  induction h generalizing p with
  | nil => rfl
  | @space b gap hb _ ih =>
    rw [List.cons_append, afterLayout, if_neg Bool.false_ne_true, if_pos hb, ih,
      Position.after_cons]
  | @comment body gap hbody _ ih =>
    -- :: The mark of a comment is passed in the one state and the rest up to its end in the other.
    have hskip : afterLayout false p (Byte.hash :: (body ++ Byte.newline :: gap ++ t)) =
        afterLayout true (p.next Byte.hash) (body ++ Byte.newline :: (gap ++ t)) := by
      simp [afterLayout, Byte.hash, Byte.isSpace]
    have hplace : p.after (Byte.hash :: (body ++ Byte.newline :: gap)) =
        ((p.next Byte.hash).after (body ++ [Byte.newline])).after gap := by
      rw [Position.after_cons, ← Position.after_append]
      simp
    rw [List.cons_append, List.cons_append, hskip, afterLayout_comment hbody, ih, hplace]

/-- All of what a program can end with is skipped by `afterLayout`, up to the end. -/
theorem afterLayout_of_endLayout {t : Text} (h : EndLayout t) (p : Position) :
    afterLayout false p t = ⟨[], p.after t⟩ := by
  cases h with
  | closed h =>
    have hskip := afterLayout_append h p []
    rwa [List.append_nil] at hskip
  | @pending gap body h hbody =>
    have hcomment : afterLayout false (p.after gap) (Byte.hash :: body) =
        afterLayout true ((p.after gap).next Byte.hash) body := by
      simp [afterLayout, Byte.hash, Byte.isSpace]
    rw [afterLayout_append h, hcomment, afterLayout_open hbody, Position.after_append,
      Position.after_cons]

/-- Layout that a program ends with is followed by the end marker, at the end of the program. -/
theorem scan_of_endLayout {c : Cursor} (h : EndLayout c.rest) :
    c.scan = (.ok ⟨.endOfInput, [], c.position.after c.rest⟩, ⟨[], c.position.after c.rest⟩) := by
  rw [scan, skipLayout, afterLayout_of_endLayout h]

end Cursor

/-- A program of layout has no tokens but the end marker. -/
theorem Token.ofSource_of_endLayout {source : Text} (h : EndLayout source) :
    Token.ofSource source = .ok [⟨.endOfInput, [], Position.start.after source⟩] := by
  rw [Token.ofSource, Cursor.scanAll_of_endOfInput (Cursor.scan_of_endLayout h) rfl]
  rfl

/-- The tokens of a program are tokens of its own and the end marker at its end. It has none of its
own exactly if it is layout. -/
theorem Token.exists_eq_of_ofSource {source : Text} {ts : List Token}
    (h : Token.ofSource source = .ok ts) :
    ∃ own : List Token, ts = own ++ [⟨.endOfInput, [], Position.start.after source⟩] ∧
      (∀ t ∈ own, t.kind ≠ .endOfInput) ∧ (own = [] ↔ EndLayout source) := by
  obtain ⟨pieces, trailing, htokens, hsource, htrailing, hall⟩ := Cursor.scanAll_spec h [] rfl
  refine ⟨pieces.map Piece.token, htokens, ?_, ?_⟩
  · intro t ht
    obtain ⟨piece, hpiece, rfl⟩ := List.mem_map.mp ht
    obtain ⟨earlier, later, hsplit⟩ := List.append_of_mem hpiece
    exact (hall earlier piece later hsplit).1.spelling.kind_ne
  · constructor
    · intro hown
      obtain rfl := List.map_eq_nil_iff.mp hown
      have hlayout : source = trailing := hsource
      exact hlayout ▸ htrailing
    · -- The tokens of layout are the end marker alone, so there is no room for others.
      intro hlayout
      have hmarker := (Token.ofSource_of_endLayout hlayout).symm.trans h
      rw [htokens, Except.ok.injEq] at hmarker
      simpa using congrArg List.length hmarker

/-- White space is layout, so a blank program is one of layout. -/
theorem EndLayout.of_isSpace {t : Text} (h : ∀ b ∈ t, b.isSpace) : EndLayout t := by
  induction t with
  | nil => exact .closed .nil
  | cons b t ih => exact (ih fun c hc => h c (by simp [hc])).space (h b (by simp))

namespace Program

/-- The commands that the text `source` denotes, or why it is refused. The statements are read from
its tokens as they are, or without the end marker if not `marked`. -/
def read (marked : Bool) (source : Text) : Except Diagnostic (List Command) :=
  match Token.ofSource source with
  | .error e => .error (.lexical e)
  | .ok ts => (ofTokens (if marked then ts else ts.dropLast)).mapError .grammatical

/-- The reading that drops the end marker is `Program.ofSource`. -/
theorem read_false : read false = ofSource := rfl

variable {ts : List Token} {cs : List Command}

/-- Only the tokens before the first end marker (`beforeEnd`) count for what `ofTokens` accepts. -/
theorem ofTokens_eq_ok_of_beforeEnd {us : List Token} (h : beforeEnd ts = beforeEnd us)
    (hts : ofTokens ts = .ok cs) : ofTokens us = .ok cs := by
  obtain ⟨pieces, hflat, hall⟩ := statements_sound hts
  exact statements_complete (hflat.trans h) hall _

/-- The end marker `e` behind the tokens `ts` makes no difference to what `ofTokens` accepts. -/
theorem ofTokens_append_endOfInput {e : Token} (hend : ∀ t ∈ ts, t.kind ≠ .endOfInput)
    (he : e.kind = .endOfInput) : ofTokens (ts ++ [e]) = .ok cs ↔ ofTokens ts = .ok cs := by
  have hmarked : beforeEnd (ts ++ [e]) = ts := by
    rw [beforeEnd_append hend, beforeEnd, List.takeWhile_cons_of_neg (by simp [he]),
      List.append_nil]
  have hbare : beforeEnd ts = ts := beforeEnd_eq_self hend
  exact ⟨ofTokens_eq_ok_of_beforeEnd (hmarked.trans hbare.symm),
    ofTokens_eq_ok_of_beforeEnd (hbare.trans hmarked.symm)⟩

/-- Tokens `ts` without an end marker denote no commands only if there are none of them. -/
theorem ne_nil_of_ofTokens (hend : ∀ t ∈ ts, t.kind ≠ .endOfInput) (hts : ts ≠ [])
    (h : ofTokens ts = .ok cs) : cs ≠ [] := by
  obtain ⟨pieces, hflat, hall⟩ := statements_sound h
  rintro rfl
  obtain rfl := List.forall₂_nil_right_iff.mp hall
  exact hts ((beforeEnd_eq_self hend).symm.trans hflat.symm)

/-- What is read from a program are the statements of its own tokens `ts`, or of these and the
`marker`. -/
theorem read_of_ofSource {source : Text} {marker : Token}
    (h : Token.ofSource source = .ok (ts ++ [marker])) :
    read false source = (ofTokens ts).mapError .grammatical ∧
      read true source = (ofTokens (ts ++ [marker])).mapError .grammatical := by
  simp [read, h]

/-- The wording of a refusal, which `f` changes, has no part in what is accepted. -/
theorem mapError_eq_ok_iff {ε ε' α : Type} {x : Except ε α} {f : ε → ε'} {a : α} :
    x.mapError f = .ok a ↔ x = .ok a := by
  cases x <;> simp [Except.mapError]

/-- The same programs are accepted with the end marker and without it, and they denote the same
commands `cs`. -/
theorem read_eq_ok_iff {source : Text} (marked : Bool) :
    read marked source = .ok cs ↔ read false source = .ok cs := by
  cases marked with
  | false => rfl
  | true =>
    cases h : Token.ofSource source with
    | error e => simp [read, h]
    | ok ts =>
      obtain ⟨own, rfl, hend, -⟩ := Token.exists_eq_of_ofSource h
      obtain ⟨hbare, hmarked⟩ := read_of_ofSource h
      rw [hbare, hmarked, mapError_eq_ok_iff, mapError_eq_ok_iff,
        ofTokens_append_endOfInput hend rfl]

/-- A program of layout is no refusal, and it denotes no commands. -/
theorem read_of_endLayout {source : Text} (h : EndLayout source) : read false source = .ok [] := by
  have hmarker : Token.ofSource source =
      .ok ([] ++ [⟨.endOfInput, [], Position.start.after source⟩]) := Token.ofSource_of_endLayout h
  rw [(read_of_ofSource hmarker).1, ofTokens, statements_nil]
  rfl

/-- A program that is more than layout (`hlayout`) and is accepted denotes at least one command. -/
theorem ne_nil_of_read {source : Text} (hlayout : ¬ EndLayout source)
    (h : read false source = .ok cs) : cs ≠ [] := by
  cases hts : Token.ofSource source with
  | error e => simp [read, hts] at h
  | ok ts =>
    obtain ⟨own, rfl, hend, hown⟩ := Token.exists_eq_of_ofSource hts
    rw [(read_of_ofSource hts).1, mapError_eq_ok_iff] at h
    exact ne_nil_of_ofTokens hend (mt hown.mp hlayout) h

end Program

namespace Session

variable {σ : Type} [Surface σ] {s : Session σ} {source : Text} {cs : List Command}

/-- A blank program is reported to have no commands, and the session `s` stays as it is. -/
theorem run_of_isSpace (h : ∀ b ∈ source, b.isSpace) : s.run source = (.noCommands, s) := by
  rw [run, if_pos (List.all_eq_true.mpr h)]

/-- A program of layout that is not blank is reported to have no tokens, and the session `s` stays
as it is. -/
theorem run_of_endLayout (hblank : ¬ ∀ b ∈ source, b.isSpace) (h : EndLayout source) :
    s.run source = (.noTokens, s) := by
  rw [run, if_neg (mt List.all_eq_true.mp hblank), Token.ofSource_of_endLayout h]
  rfl

/-- A program that is more than layout is read, and then its commands are carried out, or its
refusal is reported. -/
theorem run_of_not_endLayout (h : ¬ EndLayout source) :
    s.run source =
      match Program.read false source with
      | .error e => (.refused e, s)
      | .ok cs => s.runCommands cs := by
  have hblank : ¬ source.all Byte.isSpace := fun hspace =>
    h (.of_isSpace (List.all_eq_true.mp hspace))
  rw [run, if_neg hblank]
  cases hts : Token.ofSource source with
  | error e => simp [Program.read, hts]
  | ok ts =>
    -- The session drops every end marker, and the only one is the last token.
    obtain ⟨own, rfl, hend, hown⟩ := Token.exists_eq_of_ofSource hts
    have hkept : own.filter (fun t => t.kind ≠ .endOfInput) = own :=
      List.filter_eq_self.mpr fun t ht => by simpa using hend t ht
    have hne : own.isEmpty = false := List.isEmpty_eq_false_iff.mpr (mt hown.mp h)
    rw [(Program.read_of_ofSource hts).1]
    simp only [List.filter_append, hkept, List.filter_cons, List.filter_nil, ne_eq, not_true,
      decide_false, Bool.false_eq_true, if_false, List.append_nil, hne]
    cases Program.ofTokens own <;> rfl

/-- A program that is refused is reported with its error `e`, and the session `s` stays as it is. -/
theorem run_of_refusal {e : Diagnostic} (h : Program.read false source = .error e) :
    s.run source = (.refused e, s) := by
  have hlayout : ¬ EndLayout source := fun hlayout => by
    simp [Program.read_of_endLayout hlayout] at h
  rw [run_of_not_endLayout hlayout, h]

/-- Running a program that is accepted is carrying out its commands `cs`, if it has any. -/
theorem run_of_read {source : Text} (h : Program.read false source = .ok cs) (s : Session σ) :
    (s.run source).1.results = (s.executeAll cs).1 ∧ (s.run source).2 = (s.executeAll cs).2 := by
  by_cases hlayout : EndLayout source
  · obtain rfl : [] = cs := Except.ok.inj ((Program.read_of_endLayout hlayout).symm.trans h)
    by_cases hblank : ∀ b ∈ source, b.isSpace
    · rw [run_of_isSpace hblank]
      exact ⟨rfl, rfl⟩
    · rw [run_of_endLayout hblank hlayout]
      exact ⟨rfl, rfl⟩
  · rw [run_of_not_endLayout hlayout, h]
    exact ⟨rfl, rfl⟩

/-- Running a program is reading all of it and then carrying out its commands.

A program that is refused is reported with the message of the refusal and nothing else, and the
session stays as it is. A blank program and one of white space and comments are reported as such and
leave the session as it is. Any other program denotes at least one command, whether its end marker
is kept or not, and running it is carrying out these commands. A report has an error exactly if it
is not in order. -/
theorem run_eq_stages (s : Session σ) (source : Text) :
    (∀ e, Program.read false source = .error e → ∃ report, s.run source = (report, s) ∧
      report.isOk = false ∧ report.error? = some e.message ∧
      report.messages = [ascii "Error: " ++ e.message] ∧
      report.commandCount = 0 ∧ report.failedCommands = 0) ∧
    ((∀ b ∈ source, b.isSpace) → ∃ report, s.run source = (report, s) ∧ report.isOk ∧
      report.messages = [ascii "No commands to execute"]) ∧
    ((¬ ∀ b ∈ source, b.isSpace) → EndLayout source → ∃ report, s.run source = (report, s) ∧
      report.isOk ∧ report.messages = [ascii "No valid tokens found"]) ∧
    (¬ EndLayout source → ∀ cs, Program.read false source = .ok cs → cs ≠ [] ∧
      s.run source = s.runCommands cs) ∧
    (∀ cs, Program.read true source = .ok cs ↔ Program.read false source = .ok cs) ∧
    ((s.run source).1.isOk ↔ (s.run source).1.error? = none) := by
  -- Each part is one of the ways to run a program.
  refine ⟨?_, ?_, ?_, ?_, fun cs => Program.read_eq_ok_iff true, Option.isNone_iff_eq_none⟩
  · intro e h
    exact ⟨_, run_of_refusal h, rfl, rfl, rfl, rfl, rfl⟩
  · intro h
    exact ⟨_, run_of_isSpace h, rfl, rfl⟩
  · intro hblank h
    exact ⟨_, run_of_endLayout hblank h, rfl, rfl⟩
  · intro hlayout cs h
    refine ⟨Program.ne_nil_of_read hlayout h, ?_⟩
    rw [run_of_not_endLayout hlayout, h]

/-- Four programs, one for each way to run: a refused one, a blank one, a comment, and a command in
front of a comment. -/
theorem run_small_programs :
    let s : Session Recording := .start ⟨800, 600, [], none⟩ {}
    let e : Diagnostic := .grammatical ⟨.unknownCommand (ascii "fill"), ⟨1, 6⟩⟩
    (Program.read false (ascii "clear fill") = .error e ∧
      ∃ report, s.run (ascii "clear fill") = (report, s) ∧
        report.error? = some (ascii "Parse error at line 1, column 6: Unknown command: fill")) ∧
    ((∀ b ∈ ascii " \n", b.isSpace) ∧ ∃ report, s.run (ascii " \n") = (report, s) ∧
      report.messages = [ascii "No commands to execute"]) ∧
    ((¬ ∀ b ∈ ascii " # up", b.isSpace) ∧ EndLayout (ascii " # up") ∧
      ∃ report, s.run (ascii " # up") = (report, s) ∧
        report.messages = [ascii "No valid tokens found"]) ∧
    ¬ EndLayout (ascii "pen up # down") ∧
      Program.read false (ascii "pen up # down") = .ok [⟨.penUp, ⟨1, 0⟩⟩] ∧
      s.run (ascii "pen up # down") = s.runCommands [⟨.penUp, ⟨1, 0⟩⟩] := by
  intro s e
  have hrefused : Program.read false (ascii "clear fill") = .error e := by decide +kernel
  have hmessage : e.message = ascii "Parse error at line 1, column 6: Unknown command: fill" := by
    decide
  have hblank : ∀ b ∈ ascii " \n", b.isSpace := List.all_eq_true.mp (by decide)
  have hcomment : ¬ ∀ b ∈ ascii " # up", b.isSpace := mt List.all_eq_true.mpr (by decide)
  have hpending : EndLayout ([] ++ Byte.hash :: ascii " up") := .pending .nil (by decide)
  have hlayout : EndLayout (ascii " # up") := .space (by decide) hpending
  have hread : Program.read false (ascii "pen up # down") = .ok [⟨.penUp, ⟨1, 0⟩⟩] := by
    decide +kernel
  -- Layout alone would be read as no commands.
  have hmore : ¬ EndLayout (ascii "pen up # down") := fun h => by
    simp [Program.read_of_endLayout h] at hread
  obtain ⟨report, hrun, -, herror, -⟩ := (run_eq_stages s (ascii "clear fill")).1 e hrefused
  obtain ⟨report', hrun', -, hmessages'⟩ := (run_eq_stages s (ascii " \n")).2.1 hblank
  obtain ⟨report'', hrun'', -, hmessages''⟩ :=
    (run_eq_stages s (ascii " # up")).2.2.1 hcomment hlayout
  obtain ⟨-, hcommands⟩ := (run_eq_stages s (ascii "pen up # down")).2.2.2.1 hmore _ hread
  exact ⟨⟨hrefused, report, hrun, hmessage ▸ herror⟩, ⟨hblank, report', hrun', hmessages'⟩,
    ⟨hcomment, hlayout, report'', hrun'', hmessages''⟩, hmore, hread, hcommands⟩

end Session

end Sketch
