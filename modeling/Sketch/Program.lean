import Sketch.Binary64.Literal
import Sketch.Command
import Sketch.Token.Reader

/-!
# Programs

A program is read statement by statement, each from the tokens at the head of what is left, and the
first token that does not fit ends the reading. A problem is reported at the token ahead, or at the
last token of the program once none is left. Reading ends because no statement gives tokens back
(`Program.length_rest_action_le`).
-/

namespace Sketch

namespace Program

/-- The place of the next of the tokens `ahead`, or `last` if there is none left. -/
def placeOf (last : Position) (ahead : List Token) : Position :=
  (ahead.head?.map Token.position).getD last

/-- The `problem`, reported at the next of the tokens `ahead`, or at `last` if there is none left
(`placeOf`). -/
def refuse {α : Type} (last : Position) (ahead : List Token) (problem : SyntaxProblem) :
    Except SyntaxError α :=
  .error ⟨problem, placeOf last ahead⟩

/-- The number at the head of the tokens `ts`, and the tokens after it. A token of another kind, or
none at all, is a missing number of the `statement`. -/
def number (last : Position) (statement : NumericStatement) (ts : List Token) :
    Except SyntaxError (Binary64 × List Token) :=
  match ts with
  | [] => refuse last ts (.numberExpected statement)
  | t :: rest =>
    if t.kind = .number then
      match Binary64.ofLiteral? t.text with
      | some x => .ok (x, rest)
      | none => refuse last ts (.invalidNumber t.text)
    else refuse last ts (.numberExpected statement)

/-- The line of a `draw line` statement, from the tokens `ts` after its words: four numbers,
`x1 y1 x2 y2`. -/
def line (last : Position) (ts : List Token) : Except SyntaxError (Action × List Token) := do
  let (x1, rest) ← number last .drawLine ts
  let (y1, rest) ← number last .drawLine rest
  let (x2, rest) ← number last .drawLine rest
  let (y2, rest) ← number last .drawLine rest
  .ok (.drawLine x1 y1 x2 y2, rest)

/-- The circle of a `draw circle` statement, from the tokens `ts` after its words: three numbers,
`x y radius`. -/
def circle (last : Position) (ts : List Token) : Except SyntaxError (Action × List Token) := do
  let (x, rest) ← number last .drawCircle ts
  let (y, rest) ← number last .drawCircle rest
  let (radius, rest) ← number last .drawCircle rest
  .ok (.drawCircle x y radius, rest)

/-- The rectangle of a `draw rectangle` statement, from the tokens `ts` after its words: four
numbers, `x y width height`. -/
def rectangle (last : Position) (ts : List Token) : Except SyntaxError (Action × List Token) := do
  let (x, rest) ← number last .drawRectangle ts
  let (y, rest) ← number last .drawRectangle rest
  let (width, rest) ← number last .drawRectangle rest
  let (height, rest) ← number last .drawRectangle rest
  .ok (.drawRectangle x y width height, rest)

/-- The shape that a `draw` statement asks for, from the tokens `ts` after the word `draw`. An
unknown shape is reported at the token after it. -/
def draw (last : Position) (ts : List Token) : Except SyntaxError (Action × List Token) :=
  match ts with
  | [] => refuse last ts .shapeExpected
  | t :: rest =>
    if t.kind ≠ .keyword then refuse last ts .shapeExpected
    else if t.text = ascii "line" then line last rest
    else if t.text = ascii "circle" then circle last rest
    else if t.text = ascii "rectangle" then rectangle last rest
    else refuse last rest (.unknownShape t.text)

/-- The color that a `set` statement asks for, from the tokens `ts` after the word `set`. The word
`color` may be a token of any kind and in any case of letters. -/
def set (last : Position) (ts : List Token) : Except SyntaxError (Action × List Token) :=
  match ts with
  | [] => refuse last ts .colorKeywordExpected
  | t :: rest =>
    if t.kind ≠ .endOfInput ∧ t.text.alike (ascii "color") then
      match rest with
      | [] => refuse last rest .colorNameExpected
      | c :: after =>
        if c.kind = .colorName ∨ c.kind = .string then .ok (.setColor c.text, after)
        else refuse last rest .colorNameExpected
    else refuse last ts .colorKeywordExpected

/-- The point that a `move` statement asks for, from the tokens `ts` after the word `move`: two
numbers, `x y`. -/
def move (last : Position) (ts : List Token) : Except SyntaxError (Action × List Token) := do
  let (x, rest) ← number last .move ts
  let (y, rest) ← number last .move rest
  .ok (.move x y, rest)

/-- What a `pen` statement asks for, from the tokens `ts` after the word `pen`. The words `up` and
`down` may be tokens of any kind. -/
def pen (last : Position) (ts : List Token) : Except SyntaxError (Action × List Token) :=
  match ts with
  | [] => refuse last ts .penActionExpected
  | t :: rest =>
    if t.kind = .endOfInput then refuse last ts .penActionExpected
    else if t.text = ascii "up" then .ok (.penUp, rest)
    else if t.text = ascii "down" then .ok (.penDown, rest)
    else refuse last ts (.unknownPenAction t.text)

/-- The action of the statement that starts with the given `word`, and the tokens after it. An
unknown word is reported at the token after it. -/
def action (last : Position) (word : Text) (ts : List Token) :
    Except SyntaxError (Action × List Token) :=
  if word = ascii "draw" then draw last ts
  else if word = ascii "set" then set last ts
  else if word = ascii "clear" then .ok (.clear, ts)
  else if word = ascii "move" then move last ts
  else if word = ascii "pen" then pen last ts
  else refuse last ts (.unknownCommand word)

/-- A chain `x >>= f` of readings gives `b` when its first reading `x` gives some `a` and `f a`
gives `b` after it. -/
theorem bind_eq_ok_iff {α β : Type} {x : Except SyntaxError α} {f : α → Except SyntaxError β}
    {b : β} : x >>= f = .ok b ↔ ∃ a, x = .ok a ∧ f a = .ok b := by
  cases x <;> simp [bind, Except.bind]

/-- A reading `x` that is mapped by `f` gives `b` when `x` gives some `a` with `f a = b`. -/
theorem map_eq_ok_iff {ε α β : Type} {x : Except ε α} {f : α → β} {b : β} :
    x.map f = .ok b ↔ ∃ a, x = .ok a ∧ f a = b := by
  cases x <;> simp [Except.map]

/-- A reading `x` that is mapped by `f` fails with `e` when `x` does, so that mapping changes no
error. -/
theorem map_eq_error_iff {ε α β : Type} {x : Except ε α} {f : α → β} {e : ε} :
    x.map f = .error e ↔ x = .error e := by
  cases x <;> simp [Except.map]

/-- A refusal reads nothing: `refuse` is `.ok a` for no `a`. -/
theorem refuse_ne_ok {α : Type} (last : Position) (ahead : List Token) (problem : SyntaxProblem)
    (a : α) : refuse last ahead problem ≠ .ok a := by
  simp [refuse]

/-- A `number` that is read takes one token, which is the first of `ts`, and leaves the `rest`. -/
theorem eq_cons_of_number {last : Position} {statement : NumericStatement} {ts rest : List Token}
    {x : Binary64} (h : number last statement ts = .ok (x, rest)) : ∃ t, ts = t :: rest := by
  unfold number at h
  grind [refuse_ne_ok]

/-- A shape that `draw` reads gives no tokens back: what it leaves is no longer than `ts`. -/
theorem length_rest_draw_le {last : Position} {ts rest : List Token} {a : Action}
    (h : draw last ts = .ok (a, rest)) : rest.length ≤ ts.length := by
  unfold draw line circle rectangle at h
  grind [bind_eq_ok_iff, refuse_ne_ok, eq_cons_of_number]

/-- A color that `set` reads gives no tokens back: what it leaves is no longer than `ts`. -/
theorem length_rest_set_le {last : Position} {ts rest : List Token} {a : Action}
    (h : set last ts = .ok (a, rest)) : rest.length ≤ ts.length := by
  unfold set at h
  grind [refuse_ne_ok]

/-- What `pen` reads gives no tokens back: what it leaves is no longer than `ts`. -/
theorem length_rest_pen_le {last : Position} {ts rest : List Token} {a : Action}
    (h : pen last ts = .ok (a, rest)) : rest.length ≤ ts.length := by
  unfold pen at h
  grind [refuse_ne_ok]

/-- A statement that `action` reads gives no tokens back, whatever its `word` is. This ends the
recursion of `statements`. -/
theorem length_rest_action_le {last : Position} {word : Text} {ts rest : List Token} {a : Action}
    (h : action last word ts = .ok (a, rest)) : rest.length ≤ ts.length := by
  unfold action move at h
  grind [bind_eq_ok_iff, refuse_ne_ok, eq_cons_of_number, → length_rest_draw_le,
    → length_rest_set_le, → length_rest_pen_le]

/-- The commands of the statements at the head of the tokens `ts`, up to the first end marker, each
at the place of its first token. The place `last` is reported where no token is left. -/
def statements (last : Position) (ts : List Token) : Except SyntaxError (List Command) :=
  match ts with
  | [] => .ok []
  | t :: rest =>
    if t.kind = .endOfInput then .ok []
    else if t.kind ≠ .keyword then refuse last ts (.commandExpected t.kind)
    else
      match h : action last t.text rest with
      | .error e => .error e
      | .ok (a, after) =>
        have : after.length < rest.length + 1 := Nat.lt_succ_of_le (length_rest_action_le h)
        (statements last after).map (⟨a, t.position⟩ :: ·)
termination_by ts.length

/-- No commands are read by `statements` from no tokens. -/
@[simp]
theorem statements_nil (last : Position) : statements last [] = .ok [] := by
  rw [statements]

/-- No commands are read by `statements` from an end marker `t` on, whatever the `rest` is. -/
theorem statements_of_endOfInput {last : Position} {t : Token} {rest : List Token}
    (h : t.kind = .endOfInput) : statements last (t :: rest) = .ok [] := by
  rw [statements, if_pos h]

/-- No statement starts with a token `t` that is no keyword: `statements` refuses it there, unless
it is an end marker. -/
theorem statements_of_kind_ne {last : Position} {t : Token} {rest : List Token}
    (hend : t.kind ≠ .endOfInput) (ht : t.kind ≠ .keyword) :
    statements last (t :: rest) = refuse last (t :: rest) (.commandExpected t.kind) := by
  rw [statements, if_neg hend, if_pos ht]

/-- A statement that `action` reads is a command at the place of its first token `t`, in front of
the commands of the tokens `after` it. -/
theorem statements_of_action {last : Position} {t : Token} {rest after : List Token} {a : Action}
    (ht : t.kind = .keyword) (h : action last t.text rest = .ok (a, after)) :
    statements last (t :: rest) = (statements last after).map (⟨a, t.position⟩ :: ·) := by
  rw [statements, if_neg (by simp [ht]), if_neg (by simp [ht])]
  split
  · next e he => simp [h] at he
  · next a' after' ha =>
    obtain ⟨rfl, rfl⟩ := Prod.mk.inj (Except.ok.inj (h.symm.trans ha))
    rfl

/-- A statement that `action` refuses ends the reading with the same error `e`. -/
theorem statements_of_refusal {last : Position} {t : Token} {rest : List Token} {e : SyntaxError}
    (ht : t.kind = .keyword) (h : action last t.text rest = .error e) :
    statements last (t :: rest) = .error e := by
  rw [statements, if_neg (by simp [ht]), if_neg (by simp [ht])]
  split
  · next e' he => rw [Except.error.inj (he.symm.trans h)]
  · next a after ha => simp [h] at ha

/-- The place of the last token of `ts`, or the first byte of a program without tokens. -/
def lastPosition (ts : List Token) : Position := (ts.getLast?.map Token.position).getD .start

/-- The commands that a list of tokens `ts` denotes. An end marker ends the program, and so does the
end of the list. -/
def ofTokens (ts : List Token) : Except SyntaxError (List Command) :=
  statements (lastPosition ts) ts

/-- The commands that the text `source` denotes, or why it is refused. Its last token, the end
marker, is not parsed. -/
def ofSource (source : Text) : Except Diagnostic (List Command) :=
  match Token.ofSource source with
  | .error e => .error (.lexical e)
  | .ok ts => (ofTokens ts.dropLast).mapError .grammatical

end Program

end Sketch
