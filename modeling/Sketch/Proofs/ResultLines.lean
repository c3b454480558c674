import Mathlib.Algebra.GroupWithZero.Nat
import Sketch.Proofs.Documents
import Sketch.Proofs.Render

/-!
# The lines of the results

Drawing a program prints the count of its commands and then the result of each, with its number in
front. The result of a command that sets a color gives the name of the color as the program has it.
A name may have line breaks in it, so that a program can print lines that look like results. Every
other result is on one line, since it is made of fixed words and of numbers
(`Session.tells_execute`). `CommandLine.results_on_lines` counts the lines, and finds the results in
them again if no name has a line break.

Log lines are left out of what a run prints.
-/

namespace Sketch

/-! ## Texts on one line -/

/-- There is no line feed in a printed integer `z`. -/
theorem newline_notMem_ofInt (z : Int) : Byte.newline ∉ Text.ofInt z :=
  (isPrintedNumber_ofInt z).newline_notMem

/-- There is no line feed in words around a natural number `n` if there is none in the words
`before` and `after` it. -/
theorem count_newline_around {before after : Text} (hbefore : Byte.newline ∉ before)
    (hafter : Byte.newline ∉ after) (n : Nat) :
    (before ++ Text.ofNat n ++ after).count Byte.newline = 0 := by
  have hnumber : Byte.newline ∉ Text.ofNat n := (isDigits_ofNat n).notMem rfl
  exact List.count_eq_zero.mpr (List.not_mem_append (List.not_mem_append hbefore hnumber) hafter)

/-- There is no line feed in the text of a number `x`, be it finite or not. -/
theorem Binary64.newline_notMem_text (x : Binary64) : Byte.newline ∉ x.text :=
  x.notMem_text rfl (by decide) (by decide)

/-- There is no line feed in a printed point. -/
theorem Outcome.newline_notMem_point (x y : Pixel) : Byte.newline ∉ point x y := by
  simp only [point, List.mem_append, not_or]
  exact ⟨⟨⟨⟨by decide, newline_notMem_ofInt _⟩, by decide⟩, newline_notMem_ofInt _⟩, by decide⟩

/-- There is no line feed in the text of an outcome `o`, unless it gives the name of a color. -/
theorem Outcome.newline_notMem_text {o : Outcome} (h : ∀ name, o ≠ .colorSet name) :
    Byte.newline ∉ o.text := by
  simp only [text]
  -- The words of an outcome have no line feed, and neither have the integers among them.
  cases o with
  | drewLine x1 y1 x2 y2 =>
    simp only [List.mem_append, not_or]
    exact ⟨⟨⟨by decide, newline_notMem_point _ _⟩, by decide⟩, newline_notMem_point _ _⟩
  | drewCircle x y radius =>
    simp only [List.mem_append, not_or]
    exact ⟨⟨⟨by decide, newline_notMem_point _ _⟩, by decide⟩, newline_notMem_ofInt _⟩
  | drewRectangle x y width height =>
    simp only [List.mem_append, not_or]
    exact ⟨⟨⟨⟨⟨by decide, newline_notMem_point _ _⟩, by decide⟩, newline_notMem_ofInt _⟩,
      by decide⟩, newline_notMem_ofInt _⟩
  | colorSet name => exact absurd rfl (h name)
  | moved x y => exact List.not_mem_append (by decide) (newline_notMem_point _ _)
  | cleared | lifted | lowered => decide

/-! ## One command -/

/-- What comes of an action has no line feed in its words, be it an effect or a fault. -/
def OnOneLine : Except Fault Effect → Prop
  | .ok e => Byte.newline ∉ e.outcome.text
  | .error fault => Byte.newline ∉ fault.message

/-- What needs the pixel of `x` first fails on one line if there is none, and goes on as `next`
does. -/
theorem OnOneLine.bind {x : Binary64} {next : Pixel → Except Fault Effect}
    (h : ∀ p, OnOneLine (next p)) : OnOneLine (pixelOf x >>= next) := by
  unfold pixelOf
  cases x.pixel? with
  | some p => exact h p
  | none => exact List.not_mem_append (by decide) x.newline_notMem_text

/-- The outcome of an effect `e` that gives no name is on one line. -/
theorem OnOneLine.ok {e : Effect} (h : ∀ name, e.outcome ≠ .colorSet name) : OnOneLine (.ok e) :=
  Outcome.newline_notMem_text h

/-- What comes of an action `a` that sets no color is on one line, for every pen `p`. -/
theorem Pen.obey_onOneLine (p : Pen) {a : Action} (h : ∀ name, a ≠ .setColor name) :
    OnOneLine (p.obey a) := by
  cases a with
  | drawLine x1 y1 x2 y2 =>
    refine .bind fun px1 => .bind fun py1 => .bind fun px2 => .bind fun py2 => .ok ?_
    exact fun name => nofun
  | drawCircle x y radius =>
    refine .bind fun left => .bind fun top => .bind fun right => .bind fun bottom => ?_
    refine .bind fun cx => .bind fun cy => .bind fun r => .ok ?_
    exact fun name => nofun
  | drawRectangle x y width height =>
    refine .bind fun left => .bind fun top => .bind fun right => .bind fun bottom => ?_
    refine .bind fun w => .bind fun h => .ok ?_
    exact fun name => nofun
  -- The one outcome that repeats a text of the program.
  | setColor name => exact absurd rfl (h name)
  | clear | penUp | penDown => exact .ok fun name => nofun
  | move x y =>
    -- A move has an outcome of its own kind whether it draws a line or not.
    refine .bind fun px => .bind fun py => ?_
    dsimp only
    split
    · refine .bind fun left => .bind fun top => .ok ?_
      exact fun name => nofun
    · exact .ok fun name => nofun

/-- The result `r` tells what came of the action. Setting a color gives its name, as the program has
it, and everything else is told on one line. -/
def Result.Tells (r : Result) : Action → Prop
  | .setColor name => r.text = ascii "Color set to " ++ name
  | _ => Byte.newline ∉ r.text

namespace Session

/-- A session `s` over a picture tells what came of a command `c`. -/
theorem tells_execute (s : Session SvgPicture) (c : Command) :
    (s.execute c).1.Tells c.action := by
  by_cases hname : ∃ name, c.action = .setColor name
  · obtain ⟨name, haction⟩ := hname
    rw [execute, haction]
    exact rfl
  · have honeLine : OnOneLine (s.pen.obey c.action) := s.pen.obey_onOneLine (not_exists.mp hname)
    -- A fault is worded on one line, and so is the outcome of an action that sets no color.
    have htext : Byte.newline ∉ (s.execute c).1.text := by
      rw [execute]
      cases hobey : s.pen.obey c.action with
      | error fault =>
        rw [hobey] at honeLine
        exact List.not_mem_append (by decide) honeLine
      | ok e =>
        rw [hobey] at honeLine
        obtain ⟨call?, pen, outcome⟩ := e
        -- A picture takes every call.
        cases call? <;> exact honeLine
    cases haction : c.action with
    | setColor name => exact absurd ⟨name, haction⟩ hname
    | _ => exact htext

/-- A session `s` over a picture tells what came of each of the commands `cs`, in order. -/
theorem tells_executeAll (s : Session SvgPicture) (cs : List Command) :
    List.Forall₂ (fun c r => Result.Tells r c.action) cs (s.executeAll cs).1 := by
  induction cs generalizing s with
  | nil => exact .nil
  | cons c cs ih =>
    rw [executeAll_cons]
    exact .cons (s.tells_execute c) (ih _)

end Session

/-! ## The whole output -/

/-- The count of the `results`, and then each result with its number in front, from 1 on. -/
def Report.listing (results : List Result) : List Text :=
  (ascii "Parsed " ++ Text.ofNat results.length ++ ascii " command(s)") ::
    results.mapIdx fun i result => ascii "[" ++ Text.ofNat (i + 1) ++ ascii "] " ++ result.text

/-- Numbering the `results` from `n` on is putting their places in front of them. -/
theorem Report.numbered_eq_mapIdx (n : Nat) (results : List Result) :
    numbered n results = results.mapIdx fun i result =>
      ascii "[" ++ Text.ofNat (i + n) ++ ascii "] " ++ result.text := by
  induction results generalizing n with
  | nil => rfl
  | cons result results ih =>
    rw [numbered, ih, List.mapIdx_cons, Nat.zero_add]
    simp only [Nat.add_assoc, Nat.add_comm 1]

/-- The messages of a program that was carried out are the `listing` of its results. -/
theorem Report.messages_ran (results : List Result) : (ran results).messages = listing results :=
  congrArg (List.cons _) (numbered_eq_mapIdx 1 results)

/-- The line feeds in the name of the color that an action sets. Every other action has none. -/
def Action.lineBreaks : Action → Nat
  | .setColor name => name.count Byte.newline
  | _ => 0

/-- If the action `a` sets a color, its name has no line feed in it. -/
def Action.NameOnOneLine (a : Action) : Prop := ∀ name, a = .setColor name → Byte.newline ∉ name

/-- There are no line feeds in the name that `a` sets exactly if it is on one line. -/
theorem Action.lineBreaks_eq_zero_iff {a : Action} : a.lineBreaks = 0 ↔ a.NameOnOneLine := by
  cases a with
  | setColor name => simp [lineBreaks, NameOnOneLine, List.count_eq_zero]
  | _ => simp [lineBreaks, NameOnOneLine]

instance : DecidablePred Action.NameOnOneLine :=
  fun _ => decidable_of_iff _ Action.lineBreaks_eq_zero_iff

/-- A result `r` that tells of `a` has as many line feeds as the name that it gives. -/
theorem Result.Tells.count_newline {r : Result} {a : Action} (h : r.Tells a) :
    r.text.count Byte.newline = a.lineBreaks := by
  cases a with
  | setColor name =>
    have hwords : (ascii "Color set to ").count Byte.newline = 0 := by decide
    rw [show r.text = _ from h, List.count_append, hwords, Nat.zero_add]
    rfl
  | _ => exact List.count_eq_zero.mpr h

namespace CommandLine

/-- The text `lines messages` has a line feed behind each message, and those in the messages. -/
theorem count_newline_lines (messages : List Text) :
    (lines messages).count Byte.newline =
      messages.length + (messages.map fun m => m.count Byte.newline).sum := by
  induction messages with
  | nil => rfl
  | cons message messages ih =>
    rw [show lines (message :: messages) = message ++ [Byte.newline] ++ lines messages from rfl,
      List.count_append, List.count_append, ih, List.length_cons, List.map_cons, List.sum_cons,
      List.count_singleton_self]
    omega

/-- Messages on as many lines as there are messages (`h`) have no line feeds in them. -/
theorem newline_notMem_of_count {messages : List Text}
    (h : (lines messages).count Byte.newline = messages.length) :
    ∀ message ∈ messages, Byte.newline ∉ message := by
  rw [count_newline_lines] at h
  intro message hmessage
  have hsum : (messages.map fun m => m.count Byte.newline).sum = 0 := by omega
  exact List.count_eq_zero.mp
    (List.sum_eq_zero_iff_forall_eq_nat.mp hsum _ (List.mem_map_of_mem hmessage))

variable {cs : List Command} {results : List Result}

/-- Numbered results have the line feeds of the names that they give, and no others. -/
theorem sum_count_newline_numbered
    (h : List.Forall₂ (fun c r => Result.Tells r c.action) cs results) (n : Nat) :
    ((Report.numbered n results).map fun m => m.count Byte.newline).sum =
      (cs.map fun c => c.action.lineBreaks).sum := by
  induction h generalizing n with
  | nil => rfl
  | @cons c r cs results hc _ ih =>
    have hnumber : (ascii "[" ++ Text.ofNat n ++ ascii "] ").count Byte.newline = 0 :=
      count_newline_around (by decide) (by decide) n
    rw [Report.numbered, List.map_cons, List.sum_cons, ih, List.count_append, hnumber,
      hc.count_newline, Nat.zero_add]
    rfl

/-- The `listing` of results takes a line for each command, one before them, and those that start in
names. -/
theorem count_newline_listing (h : List.Forall₂ (fun c r => Result.Tells r c.action) cs results) :
    (lines (Report.listing results)).count Byte.newline =
      cs.length + 1 + (cs.map fun c => c.action.lineBreaks).sum := by
  have hheader : (ascii "Parsed " ++ Text.ofNat results.length ++ ascii " command(s)").count
      Byte.newline = 0 := count_newline_around (by decide) (by decide) results.length
  rw [count_newline_lines, Report.listing, ← Report.numbered_eq_mapIdx, List.length_cons,
    List.map_cons, List.sum_cons, hheader, sum_count_newline_numbered h, Nat.zero_add,
    Report.numbered_eq_mapIdx, List.length_mapIdx, h.length_eq]

/-- The output `stdout` lists the `results` of the commands `cs`, and its lines are found again
unless a name breaks one. -/
structure Lists (stdout : Text) (cs : List Command) (results : List Result) : Prop where
  /-- Each message stands in front of a line break. -/
  output : stdout = lines (Report.listing results)
  /-- The results tell of the commands, in order. -/
  tells : List.Forall₂ (fun c r => Result.Tells r c.action) cs results
  /-- There are as many lines as commands, one more, and those that start in names. -/
  lineCount : stdout.count Byte.newline =
    cs.length + 1 + (cs.map fun c => c.action.lineBreaks).sum
  /-- No line starts in a name exactly if no name has a line break. -/
  lineCount_iff :
    stdout.count Byte.newline = cs.length + 1 ↔ ∀ c ∈ cs, c.action.NameOnOneLine
  /-- The lines are the messages if no name has a line break. -/
  found : (∀ c ∈ cs, c.action.NameOnOneLine) →
    stdout.splitOn Byte.newline = Report.listing results ++ [[]]

/-- The `listing` of results that tell of the commands `cs` lists them, in the sense of `Lists`. -/
theorem lists_listing (h : List.Forall₂ (fun c r => Result.Tells r c.action) cs results) :
    Lists (lines (Report.listing results)) cs results := by
  have hcount := count_newline_listing h
  have hiff : (lines (Report.listing results)).count Byte.newline = cs.length + 1 ↔
      ∀ c ∈ cs, c.action.NameOnOneLine := by
    rw [hcount, Nat.add_eq_left, List.sum_eq_zero_iff_forall_eq_nat]
    simp [Action.lineBreaks_eq_zero_iff]
  have hlength : (Report.listing results).length = cs.length + 1 := by
    rw [Report.listing, List.length_cons, List.length_mapIdx, h.length_eq]
  refine ⟨rfl, h, hcount, hiff, fun hnames => ?_⟩
  exact splitOn_newline (newline_notMem_of_count ((hiff.mpr hnames).trans hlength.symm))

/-- A session `s` over a picture reports the results of a program with commands by listing them. -/
theorem lists_run (s : Session SvgPicture) {source : Text}
    (hsource : Program.ofSource source = .ok cs) (hne : cs ≠ []) :
    Lists (lines (s.run source).1.messages) cs (s.executeAll cs).1 := by
  have hread : Program.read false source = .ok cs := Program.read_false ▸ hsource
  have hlayout : ¬ EndLayout source := fun hlayout =>
    hne (Except.ok.inj (hread.symm.trans (Program.read_of_endLayout hlayout)))
  have hrun : (s.run source).1.messages = Report.listing (s.executeAll cs).1 := by
    rw [Session.run_of_not_endLayout hlayout, hread]
    exact Report.messages_ran _
  rw [hrun]
  exact lists_listing (s.tells_executeAll cs)

/-- A `picture` is finished with the messages of the `report` on standard output, whatever becomes
of it. -/
theorem finishPicture_stdout (o : Options) (report : Report) (picture : SvgPicture) (t : FileTree) :
    ∃ code stderr, (finishPicture (m := StateM FileTree) o report picture t).1 =
      .exited ⟨code, lines report.messages, stderr⟩ := by
  rw [finishPicture_apply]
  dsimp only
  cases report.error? with
  | some message => exact ⟨_, _, rfl⟩
  | none =>
    cases t.write? (o.outputPath (ascii ".svg")) picture.document with
    | none => exact ⟨_, _, rfl⟩
    | some t' => exact ⟨_, _, rfl⟩

/-- Drawing a program that has commands prints a line with their count and then a line for each of
them, with its number and its result. Line breaks in the names of colors start further lines, and
nothing else does. If there are none, the lines are these messages and no others. The same holds of
what a session over any picture reports. -/
theorem results_on_lines (program : Argument) {arguments : List Argument} {o : Options}
    {t : FileTree} {source : Text} {cs : List Command}
    (hoptions : Options.ofArguments arguments = .ok o) (hconfig : o.config = none)
    (hjson : ¬ Path.isCommandsFile o.input) (hread : t.read o.input = .content source)
    (hsource : Program.ofSource source = .ok cs) (hne : cs ≠ []) :
    (∃ code stdout stderr,
      (run (m := StateM FileTree) program (.ofText (ascii "render") :: arguments) t).1 =
        .exited ⟨code, stdout, stderr⟩ ∧
      Lists stdout cs ((Session.start (SvgPicture.onCanvas {} []) {}).executeAll cs).1) ∧
    ∀ s : Session SvgPicture, Lists (lines (s.run source).1.messages) cs (s.executeAll cs).1 := by
  have hrun := run_render_of_read program hoptions hconfig hjson hread
  obtain ⟨code, stderr, hending⟩ :=
    finishPicture_stdout o (drawn source).1 (drawn source).2.surface t
  refine ⟨⟨code, _, stderr, by rw [hrun, hending], ?_⟩, fun s => lists_run s hsource hne⟩
  exact lists_run _ hsource hne

/-- Two commands, of which one has a name that looks like a result. -/
def resultAsName : Text := ascii "set color \"[2] Pen lifted\" clear"

/-- The lines of that program are found again, since no line starts in the name. -/
theorem results_on_lines_of_result_as_name :
    ∃ code stdout stderr,
      (run (m := StateM FileTree) (.ofText (ascii "sketch"))
          [.ofText (ascii "render"), .ofText (ascii "a.draw")]
          ⟨[([ascii "a.draw"], resultAsName)]⟩).1 = .exited ⟨code, stdout, stderr⟩ ∧
      stdout.splitOn Byte.newline =
        [ascii "Parsed 2 command(s)", ascii "[1] Color set to [2] Pen lifted",
          ascii "[2] Canvas cleared", []] := by
  let o : Options := { input := ascii "a.draw" }
  let t : FileTree := ⟨[([ascii "a.draw"], resultAsName)]⟩
  let cs : List Command :=
    [⟨.setColor (ascii "[2] Pen lifted"), ⟨1, 0⟩⟩, ⟨.clear, ⟨1, 27⟩⟩]
  have hoptions : Options.ofArguments [.ofText (ascii "a.draw")] = .ok o := by rfl
  have hread : t.read o.input = .content resultAsName := by rfl
  have hsource : Program.ofSource resultAsName = .ok cs := by decide +kernel
  obtain ⟨⟨code, stdout, stderr, hrun, hlists⟩, -⟩ :=
    results_on_lines (.ofText (ascii "sketch")) hoptions rfl (by decide) hread hsource (by decide)
  have hfound := hlists.found (by decide)
  exact ⟨code, stdout, stderr, hrun, hfound.trans (by decide +kernel)⟩

/-- One command, with a name that goes on with what looks like the result of another one. -/
def resultInName : Text := ascii "set color \"red\\n[2] Pen lifted\""

/-- The name of that program puts a line for a second result into the output. -/
theorem name_forges_result_line :
    let stdout := lines [ascii "Parsed 1 command(s)", ascii "[1] Color set to red",
      ascii "[2] Pen lifted"]
    Program.ofSource resultInName =
        .ok [⟨.setColor (ascii "red\n[2] Pen lifted"), ⟨1, 0⟩⟩] ∧
      (run (m := StateM FileTree) (.ofText (ascii "sketch"))
          [.ofText (ascii "render"), .ofText (ascii "a.draw")]
          ⟨[([ascii "a.draw"], resultInName)]⟩).1 =
        .exited ⟨0, stdout, line (ascii "Wrote a.svg (0 elements)")⟩ ∧
      stdout.count Byte.newline ≠ 1 + 1 := by
  intro stdout
  let o : Options := { input := ascii "a.draw" }
  let t : FileTree := ⟨[([ascii "a.draw"], resultInName)]⟩
  have hoptions : Options.ofArguments [.ofText (ascii "a.draw")] = .ok o := by rfl
  have hread : t.read o.input = .content resultInName := by rfl
  refine ⟨by decide +kernel, ?_, by decide +kernel⟩
  rw [run_render_of_read (.ofText (ascii "sketch")) hoptions rfl (by decide) hread]
  decide +kernel

end CommandLine

end Sketch
