import Mathlib.Data.List.Forall2
import Sketch.Program
import Sketch.Proofs.Literal

/-!
# The grammar of programs

`Statement` lists the statements of the language, each as the tokens that make it up and the command
that it denotes. A program is a concatenation of statements, ended by the first end marker or by the
end of the tokens. `Program.ofTokens_eq_ok_iff` shows that reading a program accepts this grammar
and nothing else, and that it returns one command for each statement, in order.

The proof goes statement by statement. What `action` reads after a keyword are the operands of a
statement (`statement_of_action`), and it reads the operands of a statement whatever follows them
(`action_of_statement`); both rest on `number_eq_ok_iff`. The two halves of the theorem follow these
through the loop over statements (`statements_sound`, `statements_complete`), which reads statements
one for one (`statements_append`).
-/

namespace Sketch

/-- The token `t` is the given `word` of the language: a keyword with that text, in small letters.
-/
def Token.IsKeyword (t : Token) (word : String) : Prop :=
  t.kind = .keyword ∧ t.text = ascii word

/-- The token `t` is a number literal, and it stands for the number `x` (`Binary64.ofNumeral`). -/
def Token.IsNumber (t : Token) (x : Binary64) : Prop :=
  t.kind = .number ∧ IsNumeral t.text ∧ x = .ofNumeral t.text

/-- The tokens of a statement, and the command that it denotes. The word `color` may be a token of
any kind and in any case of letters, and the words `up` and `down` may be tokens of any kind. -/
inductive Statement : List Token → Command → Prop
  | drawLine {draw line a b c d : Token} {x1 y1 x2 y2 : Binary64} :
    draw.IsKeyword "draw" → line.IsKeyword "line" → a.IsNumber x1 → b.IsNumber y1 →
      c.IsNumber x2 → d.IsNumber y2 →
      Statement [draw, line, a, b, c, d] ⟨.drawLine x1 y1 x2 y2, draw.position⟩
  | drawCircle {draw circle a b c : Token} {x y radius : Binary64} :
    draw.IsKeyword "draw" → circle.IsKeyword "circle" → a.IsNumber x → b.IsNumber y →
      c.IsNumber radius →
      Statement [draw, circle, a, b, c] ⟨.drawCircle x y radius, draw.position⟩
  | drawRectangle {draw rectangle a b c d : Token} {x y width height : Binary64} :
    draw.IsKeyword "draw" → rectangle.IsKeyword "rectangle" → a.IsNumber x → b.IsNumber y →
      c.IsNumber width → d.IsNumber height →
      Statement [draw, rectangle, a, b, c, d] ⟨.drawRectangle x y width height, draw.position⟩
  | setColor {set color name : Token} :
    set.IsKeyword "set" → Text.alike color.text (ascii "color") →
      (name.kind = .colorName ∨ name.kind = .string) →
      Statement [set, color, name] ⟨.setColor name.text, set.position⟩
  | clear {clear : Token} : clear.IsKeyword "clear" → Statement [clear] ⟨.clear, clear.position⟩
  | move {move a b : Token} {x y : Binary64} :
    move.IsKeyword "move" → a.IsNumber x → b.IsNumber y →
      Statement [move, a, b] ⟨.move x y, move.position⟩
  | penUp {pen up : Token} :
    pen.IsKeyword "pen" → up.text = ascii "up" → Statement [pen, up] ⟨.penUp, pen.position⟩
  | penDown {pen down : Token} :
    pen.IsKeyword "pen" → down.text = ascii "down" →
      Statement [pen, down] ⟨.penDown, pen.position⟩

/-- A `Statement` starts with a keyword `t`, and its command `c` stands at the place of `t`. -/
theorem Statement.exists_keyword {ts : List Token} {c : Command} (h : Statement ts c) :
    ∃ t operands, ts = t :: operands ∧ t.kind = .keyword ∧ c.position = t.position := by
  cases h <;> exact ⟨_, _, rfl, And.left ‹_›, rfl⟩

namespace Program

/-- The tokens of `ts` before the first end marker, which are all of them if there is none. -/
def beforeEnd (ts : List Token) : List Token := ts.takeWhile (·.kind ≠ .endOfInput)

/-- Tokens `ts` among which there is no end marker stand before the first end marker of
`ts ++ rest`. -/
theorem beforeEnd_append {ts : List Token} (h : ∀ t ∈ ts, t.kind ≠ .endOfInput)
    (rest : List Token) : beforeEnd (ts ++ rest) = ts ++ beforeEnd rest :=
  List.takeWhile_append_of_pos fun t ht => by simpa using h t ht

/-- If no token of `ts` is an end marker, `beforeEnd ts` is all of `ts`. -/
theorem beforeEnd_eq_self {ts : List Token} (h : ∀ t ∈ ts, t.kind ≠ .endOfInput) :
    beforeEnd ts = ts :=
  List.takeWhile_eq_self_iff.mpr fun t ht => by simpa using h t ht

/-- A list `ts` is `beforeEnd ts` and a `rest` that is empty or starts with the first end marker. -/
theorem exists_eq_beforeEnd_append (ts : List Token) :
    ∃ rest, ts = beforeEnd ts ++ rest ∧ beforeEnd rest = [] := by
  refine ⟨ts.dropWhile (·.kind ≠ .endOfInput), List.takeWhile_append_dropWhile.symm, ?_⟩
  have hhead := List.head?_dropWhile_not (fun t : Token => decide (t.kind ≠ .endOfInput)) ts
  cases hdrop : ts.dropWhile (·.kind ≠ .endOfInput) with
  | nil => rfl
  | cons t rest =>
    rw [hdrop] at hhead
    exact List.takeWhile_cons_of_neg (by simpa using hhead)

/-! ## One statement -/

/-- The reading `number` takes up a number literal `t` with its value `x`, whatever the `rest` is
after it. -/
theorem number_of_isNumber {t : Token} {x : Binary64} (h : t.IsNumber x) (last : Position)
    (statement : NumericStatement) (rest : List Token) :
    number last statement (t :: rest) = .ok (x, rest) := by
  obtain ⟨hkind, hnumeral⟩ := h
  simp [number, hkind, Binary64.ofLiteral?_eq_some_iff.mpr hnumeral]

/-- What the reading `number` gives is one number literal `t` at the head of `ts`, with its value
`x`, and it leaves the tokens after `t`. -/
theorem number_eq_ok_iff {last : Position} {statement : NumericStatement} {ts rest : List Token}
    {x : Binary64} :
    number last statement ts = .ok (x, rest) ↔ ∃ t, ts = t :: rest ∧ t.IsNumber x := by
  constructor
  · intro h
    obtain ⟨t, rfl⟩ := eq_cons_of_number h
    refine ⟨t, rfl, ?_⟩
    simp only [number] at h
    split at h
    · split at h
      · obtain ⟨rfl, -⟩ := Prod.mk.inj (Except.ok.inj h)
        exact ⟨‹_›, Binary64.ofLiteral?_eq_some_iff.mp ‹_›⟩
      · exact absurd h (refuse_ne_ok _ _ _ _)
    · exact absurd h (refuse_ne_ok _ _ _ _)
  · rintro ⟨t, rfl, ht⟩
    exact number_of_isNumber ht last statement rest

/-- What `draw` reads after the token `t` are the `operands` of a statement that starts with `t`. No
end marker is among them. -/
theorem statement_of_draw {last : Position} {t : Token} {rest after : List Token} {a : Action}
    (ht : t.IsKeyword "draw") (h : draw last rest = .ok (a, after)) :
    ∃ operands, rest = operands ++ after ∧ (∀ u ∈ operands, u.kind ≠ .endOfInput) ∧
      Statement (t :: operands) ⟨a, t.position⟩ := by
  cases rest with
  | nil => exact absurd h (refuse_ne_ok _ _ _ _)
  | cons shape rest =>
    rw [draw] at h
    -- The shapes are tried in the order of `draw`, and each one that is read is a constructor of
    -- `Statement`.
    split at h
    · exact absurd h (refuse_ne_ok _ _ _ _)
    · have hshape : shape.kind = .keyword := by simpa using ‹¬ shape.kind ≠ .keyword›
      split at h
      · -- Each number of the chain of readings is a token of the statement.
        simp only [line, bind_eq_ok_iff, Prod.exists, number_eq_ok_iff] at h
        obtain ⟨x1, _, ⟨a, rfl, ha⟩, y1, _, ⟨b, rfl, hb⟩, x2, _, ⟨c, rfl, hc⟩, y2, _,
          ⟨d, rfl, hd⟩, h⟩ := h
        obtain ⟨rfl, rfl⟩ := Prod.mk.inj (Except.ok.inj h)
        exact ⟨[shape, a, b, c, d], rfl, by simp [hshape, ha.1, hb.1, hc.1, hd.1],
          .drawLine ht ⟨hshape, ‹_›⟩ ha hb hc hd⟩
      · split at h
        · simp only [circle, bind_eq_ok_iff, Prod.exists, number_eq_ok_iff] at h
          obtain ⟨x, _, ⟨a, rfl, ha⟩, y, _, ⟨b, rfl, hb⟩, radius, _, ⟨c, rfl, hc⟩, h⟩ := h
          obtain ⟨rfl, rfl⟩ := Prod.mk.inj (Except.ok.inj h)
          exact ⟨[shape, a, b, c], rfl, by simp [hshape, ha.1, hb.1, hc.1],
            .drawCircle ht ⟨hshape, ‹_›⟩ ha hb hc⟩
        · split at h
          · simp only [rectangle, bind_eq_ok_iff, Prod.exists, number_eq_ok_iff] at h
            obtain ⟨x, _, ⟨a, rfl, ha⟩, y, _, ⟨b, rfl, hb⟩, width, _, ⟨c, rfl, hc⟩, height, _,
              ⟨d, rfl, hd⟩, h⟩ := h
            obtain ⟨rfl, rfl⟩ := Prod.mk.inj (Except.ok.inj h)
            exact ⟨[shape, a, b, c, d], rfl, by simp [hshape, ha.1, hb.1, hc.1, hd.1],
              .drawRectangle ht ⟨hshape, ‹_›⟩ ha hb hc hd⟩
          · exact absurd h (refuse_ne_ok _ _ _ _)

/-- What `set` reads after the token `t` are the `operands` of a statement that starts with `t`. No
end marker is among them. -/
theorem statement_of_set {last : Position} {t : Token} {rest after : List Token} {a : Action}
    (ht : t.IsKeyword "set") (h : set last rest = .ok (a, after)) :
    ∃ operands, rest = operands ++ after ∧ (∀ u ∈ operands, u.kind ≠ .endOfInput) ∧
      Statement (t :: operands) ⟨a, t.position⟩ := by
  match rest with
  | [] => exact absurd h (refuse_ne_ok _ _ _ _)
  | [color] =>
    simp only [set] at h
    split at h <;> exact absurd h (refuse_ne_ok _ _ _ _)
  | color :: name :: rest =>
    simp only [set] at h
    split at h
    · -- Both tokens have been checked by `set` to be no end marker, the second one by its kind.
      obtain ⟨hcolor, halike⟩ := ‹_ ∧ _›
      split at h
      · obtain ⟨rfl, rfl⟩ := Prod.mk.inj (Except.ok.inj h)
        refine ⟨[color, name], rfl, ?_, .setColor ht halike ‹_›⟩
        rcases ‹name.kind = .colorName ∨ name.kind = .string› with hname | hname <;>
          simp [hcolor, hname]
      · exact absurd h (refuse_ne_ok _ _ _ _)
    · exact absurd h (refuse_ne_ok _ _ _ _)

/-- What `move` reads after the token `t` are the `operands` of a statement that starts with `t`. No
end marker is among them. -/
theorem statement_of_move {last : Position} {t : Token} {rest after : List Token} {a : Action}
    (ht : t.IsKeyword "move") (h : move last rest = .ok (a, after)) :
    ∃ operands, rest = operands ++ after ∧ (∀ u ∈ operands, u.kind ≠ .endOfInput) ∧
      Statement (t :: operands) ⟨a, t.position⟩ := by
  simp only [move, bind_eq_ok_iff, Prod.exists, number_eq_ok_iff] at h
  obtain ⟨x, _, ⟨a, rfl, ha⟩, y, _, ⟨b, rfl, hb⟩, h⟩ := h
  obtain ⟨rfl, rfl⟩ := Prod.mk.inj (Except.ok.inj h)
  exact ⟨[a, b], rfl, by simp [ha.1, hb.1], .move ht ha hb⟩

/-- What `pen` reads after the token `t` are the `operands` of a statement that starts with `t`. No
end marker is among them. -/
theorem statement_of_pen {last : Position} {t : Token} {rest after : List Token} {a : Action}
    (ht : t.IsKeyword "pen") (h : pen last rest = .ok (a, after)) :
    ∃ operands, rest = operands ++ after ∧ (∀ u ∈ operands, u.kind ≠ .endOfInput) ∧
      Statement (t :: operands) ⟨a, t.position⟩ := by
  cases rest with
  | nil => exact absurd h (refuse_ne_ok _ _ _ _)
  | cons word rest =>
    simp only [pen] at h
    split at h
    · exact absurd h (refuse_ne_ok _ _ _ _)
    · have hword : ∀ u ∈ [word], u.kind ≠ .endOfInput := by simpa using ‹¬ word.kind = .endOfInput›
      split at h
      · obtain ⟨rfl, rfl⟩ := Prod.mk.inj (Except.ok.inj h)
        exact ⟨[word], rfl, hword, .penUp ht ‹_›⟩
      · split at h
        · obtain ⟨rfl, rfl⟩ := Prod.mk.inj (Except.ok.inj h)
          exact ⟨[word], rfl, hword, .penDown ht ‹_›⟩
        · exact absurd h (refuse_ne_ok _ _ _ _)

/-- What `action` reads after a keyword `t` are the `operands` of a statement that starts with `t`:
one of `statement_of_draw`, `statement_of_set`, `statement_of_move`, `statement_of_pen`, or `clear`
without operands. -/
theorem statement_of_action {last : Position} {t : Token} {rest after : List Token} {a : Action}
    (ht : t.kind = .keyword) (h : action last t.text rest = .ok (a, after)) :
    ∃ operands, rest = operands ++ after ∧ (∀ u ∈ operands, u.kind ≠ .endOfInput) ∧
      Statement (t :: operands) ⟨a, t.position⟩ := by
  unfold action at h
  split at h
  · exact statement_of_draw ⟨ht, ‹_›⟩ h
  split at h
  · exact statement_of_set ⟨ht, ‹_›⟩ h
  split at h
  · obtain ⟨rfl, rfl⟩ := Prod.mk.inj (Except.ok.inj h)
    exact ⟨[], rfl, by simp, .clear ⟨ht, ‹_›⟩⟩
  split at h
  · exact statement_of_move ⟨ht, ‹_›⟩ h
  split at h
  · exact statement_of_pen ⟨ht, ‹_›⟩ h
  · exact absurd h (refuse_ne_ok _ _ _ _)

/-- After the word `draw`, the reading `action` goes on as `draw` does on the tokens `ts` behind it.
-/
theorem action_draw {t : Token} (ht : t.IsKeyword "draw") (last : Position) (ts : List Token) :
    action last t.text ts = draw last ts := by
  rw [ht.2]
  rfl

/-- After the word `set`, the reading `action` goes on as `set` does on the tokens `ts` behind it.
-/
theorem action_set {t : Token} (ht : t.IsKeyword "set") (last : Position) (ts : List Token) :
    action last t.text ts = set last ts := by
  rw [ht.2]
  rfl

/-- The word `clear` is a statement of its own: `action` takes up none of the tokens `ts` behind it.
-/
theorem action_clear {t : Token} (ht : t.IsKeyword "clear") (last : Position) (ts : List Token) :
    action last t.text ts = .ok (.clear, ts) := by
  rw [ht.2]
  rfl

/-- After the word `move`, the reading `action` goes on as `move` does on the tokens `ts` behind it.
-/
theorem action_move {t : Token} (ht : t.IsKeyword "move") (last : Position) (ts : List Token) :
    action last t.text ts = move last ts := by
  rw [ht.2]
  rfl

/-- After the word `pen`, the reading `action` goes on as `pen` does on the tokens `ts` behind it.
-/
theorem action_pen {t : Token} (ht : t.IsKeyword "pen") (last : Position) (ts : List Token) :
    action last t.text ts = pen last ts := by
  rw [ht.2]
  rfl

/-- After the word `line`, the reading `draw` goes on as `line` does on the tokens `ts` behind it.
-/
theorem draw_line {t : Token} (ht : t.IsKeyword "line") (last : Position) (ts : List Token) :
    draw last (t :: ts) = line last ts := by
  rw [draw, ht.1, ht.2]
  rfl

/-- After the word `circle`, the reading `draw` goes on as `circle` does on the tokens `ts` behind
it. -/
theorem draw_circle {t : Token} (ht : t.IsKeyword "circle") (last : Position) (ts : List Token) :
    draw last (t :: ts) = circle last ts := by
  rw [draw, ht.1, ht.2]
  rfl

/-- After the word `rectangle`, the reading `draw` goes on as `rectangle` does on the tokens `ts`
behind it. -/
theorem draw_rectangle {t : Token} (ht : t.IsKeyword "rectangle") (last : Position)
    (ts : List Token) : draw last (t :: ts) = rectangle last ts := by
  rw [draw, ht.1, ht.2]
  rfl

/-- The `operands` of a `Statement` are taken up by `action` as its command says, whatever the
`rest` is after them. The hypothesis `hend` excludes an end marker as an operand, which the grammar
alone does not. -/
theorem action_of_statement {t : Token} {operands : List Token} {c : Command}
    (h : Statement (t :: operands) c) (hend : ∀ u ∈ operands, u.kind ≠ .endOfInput)
    (last : Position) (rest : List Token) :
    action last t.text (operands ++ rest) = .ok (c.action, rest) := by
  -- One case for each form of statement. The numbers are read one by one, in the order of the form.
  cases h with
  | drawLine hdraw hline ha hb hc hd =>
    rw [action_draw hdraw, List.cons_append, draw_line hline]
    simp [line, number_of_isNumber ha, number_of_isNumber hb, number_of_isNumber hc,
      number_of_isNumber hd, bind, Except.bind]
  | drawCircle hdraw hcircle ha hb hc =>
    rw [action_draw hdraw, List.cons_append, draw_circle hcircle]
    simp [circle, number_of_isNumber ha, number_of_isNumber hb, number_of_isNumber hc, bind,
      Except.bind]
  | drawRectangle hdraw hrectangle ha hb hc hd =>
    rw [action_draw hdraw, List.cons_append, draw_rectangle hrectangle]
    simp [rectangle, number_of_isNumber ha, number_of_isNumber hb, number_of_isNumber hc,
      number_of_isNumber hd, bind, Except.bind]
  | setColor hset hcolor hname =>
    rw [action_set hset]
    simp [set, hcolor, hname, hend]
  | clear hclear =>
    rw [action_clear hclear]
    rfl
  | move hmove ha hb =>
    rw [action_move hmove]
    simp [move, number_of_isNumber ha, number_of_isNumber hb, bind, Except.bind]
  | penUp hpen hup =>
    rw [action_pen hpen]
    simp [pen, hup, hend]
  | penDown hpen hdown =>
    have hup : ascii "down" ≠ ascii "up" := by decide
    rw [action_pen hpen]
    simp [pen, hup, hdown, hend]

/-! ## All statements -/

/-- A `piece` that is a `Statement` is read as its command `c`, and `statements` goes on with the
`rest` after it. -/
theorem statements_of_statement {piece : List Token} {c : Command} (h : Statement piece c)
    (hend : ∀ t ∈ piece, t.kind ≠ .endOfInput) (last : Position) (rest : List Token) :
    statements last (piece ++ rest) = (statements last rest).map (c :: ·) := by
  obtain ⟨t, operands, rfl, ht, hplace⟩ := h.exists_keyword
  have hops : ∀ u ∈ operands, u.kind ≠ .endOfInput := (List.forall_mem_cons.mp hend).2
  rw [List.cons_append, statements_of_action ht (action_of_statement h hops last rest), ← hplace]

/-- A list of `pieces` that are a `Statement` each is read as their commands `cs` in order, and
`statements` goes on with the `rest` after them. -/
theorem statements_append {pieces : List (List Token)} {cs : List Command}
    (h : List.Forall₂ Statement pieces cs) (hend : ∀ t ∈ pieces.flatten, t.kind ≠ .endOfInput)
    (last : Position) (rest : List Token) :
    statements last (pieces.flatten ++ rest) = (statements last rest).map (cs ++ ·) := by
  -- The induction is on the statements; each is read with all that follows it as its rest.
  induction h with
  | nil =>
    rw [List.flatten_nil, List.nil_append]
    cases statements last rest <;> rfl
  | @cons piece c pieces cs hstatement _ ih =>
    rw [List.flatten_cons] at hend ⊢
    obtain ⟨hpiece, hpieces⟩ := List.forall_mem_append.mp hend
    rw [List.append_assoc, statements_of_statement hstatement hpiece, ih hpieces]
    cases statements last rest <;> rfl

/-- The commands `cs` that `statements` reads come from `pieces` that are a `Statement` each, and
together these are the tokens before the first end marker. -/
theorem statements_sound {last : Position} {ts : List Token} {cs : List Command}
    (h : statements last ts = .ok cs) :
    ∃ pieces : List (List Token), pieces.flatten = beforeEnd ts ∧
      List.Forall₂ Statement pieces cs := by
  induction ts using statements.induct last generalizing cs with
  | case1 =>
    rw [statements_nil, Except.ok.injEq] at h
    exact ⟨[], rfl, h ▸ .nil⟩
  | case2 t rest hend =>
    rw [statements_of_endOfInput hend, Except.ok.injEq] at h
    exact ⟨[], by simp [beforeEnd, hend], h ▸ .nil⟩
  | case3 t rest hend hkind =>
    rw [statements_of_kind_ne hend hkind] at h
    exact absurd h (refuse_ne_ok _ _ _ _)
  | case4 t rest hend hkind e he =>
    rw [statements_of_refusal (not_not.mp hkind) he] at h
    exact absurd h (by simp)
  | case5 t rest hend hkind a after ha hlt ih =>
    rw [statements_of_action (not_not.mp hkind) ha] at h
    obtain ⟨cs', hcs', rfl⟩ := map_eq_ok_iff.mp h
    obtain ⟨pieces, hflat, hall⟩ := ih hcs'
    -- The statement holds no end marker, so the first one is still ahead.
    obtain ⟨operands, rfl, hops, hstatement⟩ := statement_of_action (not_not.mp hkind) ha
    refine ⟨(t :: operands) :: pieces, ?_, .cons hstatement hall⟩
    have hpiece : ∀ u ∈ t :: operands, u.kind ≠ .endOfInput := by simpa using ⟨hend, hops⟩
    rw [List.flatten_cons, hflat, ← List.cons_append, beforeEnd_append hpiece]

/-- If `pieces` that are a `Statement` each make up the tokens of `ts` before the first end marker,
then `statements` reads `ts` as their commands. -/
theorem statements_complete {ts : List Token} {pieces : List (List Token)} {cs : List Command}
    (hflat : pieces.flatten = beforeEnd ts) (h : List.Forall₂ Statement pieces cs)
    (last : Position) : statements last ts = .ok cs := by
  obtain ⟨rest, hts, hrest⟩ := exists_eq_beforeEnd_append ts
  have hend : ∀ t ∈ pieces.flatten, t.kind ≠ .endOfInput := by
    rw [hflat]
    exact fun t ht => by simpa using List.mem_takeWhile_imp ht
  -- The statements are read, and what follows them is empty or starts with the end marker.
  have hnil : statements last rest = .ok [] := by
    cases rest with
    | nil => exact statements_nil last
    | cons t rest =>
      have ht : t.kind = .endOfInput := by simpa [beforeEnd] using hrest
      exact statements_of_endOfInput ht
  rw [hts, ← hflat, statements_append h hend, hnil]
  simp [Except.map]

/-- After tokens `ts` that are read as `cs` and hold no end marker, `statements` reads the `rest` as
it does at the start of a program. The place `last'` of the whole list may be another than `last`.
-/
theorem statements_append_of_ok {last : Position} {ts : List Token} {cs : List Command}
    (h : statements last ts = .ok cs) (hend : ∀ t ∈ ts, t.kind ≠ .endOfInput) (last' : Position)
    (rest : List Token) :
    statements last' (ts ++ rest) = (statements last' rest).map (cs ++ ·) := by
  obtain ⟨pieces, hflat, hall⟩ := statements_sound h
  rw [beforeEnd_eq_self hend] at hflat
  subst hflat
  exact statements_append hall hend last' rest

/-- A list `ts` of tokens is read as `cs` exactly when the tokens before its first end marker are a
concatenation of `pieces`, each a `Statement` that denotes the command of `cs` at its position. -/
theorem ofTokens_eq_ok_iff (ts : List Token) (cs : List Command) :
    ofTokens ts = .ok cs ↔
      ∃ pieces : List (List Token), pieces.flatten = beforeEnd ts ∧
        List.Forall₂ Statement pieces cs := by
  constructor
  · intro h
    exact statements_sound h
  · rintro ⟨pieces, hflat, hall⟩
    exact statements_complete hflat hall _

end Program

end Sketch
