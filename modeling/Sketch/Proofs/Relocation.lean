import Sketch.Proofs.Reading
import Sketch.Token.Reader

/-!
# Reading does not depend on where it starts

Places are found by counting and are handed on, and nothing else is done with them. So if a program
starts elsewhere, its tokens, its commands and its errors are the same at other places. For the
tokens this holds of every map of places that goes on from byte to byte as places do
(`Position.IsShift`, `Cursor.scanAll_relocate`), and for the statements it holds of every map of
places (`Program.statements_relocate`).

Each token and each statement is read elsewhere as it is read here, and the two theorems follow by
induction over tokens and over statements. For the operands of statements the property is closed
under putting one reading after another (`Program.Reading.Relocates.bind`).
-/

namespace Sketch

/-- The token `t` at another place, to which `g` moves its own. -/
def Token.relocate (g : Position → Position) (t : Token) : Token :=
  { t with position := g t.position }

/-- The command `c` at another place, to which `g` moves its own. -/
def Command.relocate (g : Position → Position) (c : Command) : Command :=
  { c with position := g c.position }

/-- The lexical error `e` at another place, to which `g` moves its own. -/
def LexicalError.relocate (g : Position → Position) (e : LexicalError) : LexicalError :=
  ⟨g e.position⟩

/-- The syntax error `e` at another place, to which `g` moves its own. Its problem is the same. -/
def SyntaxError.relocate (g : Position → Position) (e : SyntaxError) : SyntaxError :=
  { e with position := g e.position }

/-- The diagnostic at another place, to which `g` moves its own. -/
def Diagnostic.relocate (g : Position → Position) : Diagnostic → Diagnostic
  | lexical e => lexical (e.relocate g)
  | grammatical e => grammatical (e.relocate g)

/-- The map `g` of places goes on from byte to byte as places do. -/
def Position.IsShift (g : Position → Position) : Prop := ∀ p b, (g p).next b = g (p.next b)

/-! ## Tokens -/

namespace Cursor

/-- The cursor `c` at another place, to which `g` moves its own, with the same bytes ahead. -/
def relocate (g : Position → Position) (c : Cursor) : Cursor := ⟨c.rest, g c.position⟩

variable {g : Position → Position}

/-- A shift `g` moves the place after a `piece` of the program as it moves the place before it. -/
theorem after_relocate (hg : Position.IsShift g) (p : Position) (piece : Text) :
    (g p).after piece = g (p.after piece) := by
  induction piece generalizing p with
  | nil => rfl
  | cons b piece ih => rw [Position.after_cons, hg, ih, Position.after_cons]

/-- Layout is skipped the same elsewhere, where `g` moves the place. -/
theorem afterLayout_relocate (hg : Position.IsShift g) (inComment : Bool) (p : Position)
    (t : Text) : afterLayout inComment (g p) t = (afterLayout inComment p t).relocate g := by
  induction t generalizing inComment p with
  | nil => rfl
  | cons b t ih =>
    have hnext : (g p).next b = g (p.next b) := hg p b
    simp only [afterLayout, hnext]
    split
    · exact ih _ _
    · split
      · exact ih _ _
      · split
        · exact ih _ _
        · rfl

/-- A cursor advances by `n` bytes the same elsewhere, where `g` moves the place. -/
theorem advance_relocate (hg : Position.IsShift g) (t : Text) (p : Position) (n : Nat) :
    (Cursor.mk t (g p)).advance n = ((Cursor.mk t p).advance n).relocate g := by
  simp only [advance, relocate, after_relocate hg]

/-- A token is read the same elsewhere: only its place is moved by `g`, or that of the error. -/
theorem scan_relocate (hg : Position.IsShift g) (c : Cursor) :
    (c.relocate g).scan =
      ((c.scan.1.map (Token.relocate g)).mapError (LexicalError.relocate g),
        c.scan.2.relocate g) := by
  have hskip : (c.relocate g).skipLayout = c.skipLayout.relocate g :=
    afterLayout_relocate hg false c.position c.rest
  simp only [scan, hskip]
  -- Layout is passed alike from both places, and the lexeme behind it does not look at the place.
  generalize c.skipLayout = skipped
  obtain ⟨rest, p⟩ := skipped
  cases rest with
  | nil => rfl
  | cons b rest =>
    cases hread : Lexeme.read? b rest with
    | none =>
      simp only [relocate, hread, advance_relocate hg]
      rfl
    | some l =>
      simp only [relocate, hread, advance_relocate hg]
      rfl

/-- The tokens of a program are the same elsewhere, each with its place moved by `g`. -/
theorem scanAll_relocate (hg : Position.IsShift g) (c : Cursor) :
    (c.relocate g).scanAll.1 =
      (c.scanAll.1.map (List.map (Token.relocate g))).mapError (LexicalError.relocate g) := by
  -- By the steps of the scanner: it stops with an error, stops with the end marker, or goes on.
  induction c using scanAll.induct with
  | case1 c e c' hc =>
    have hscan := scan_relocate hg c
    rw [hc] at hscan
    rw [scanAll_of_error hc, scanAll_of_error hscan]
    rfl
  | case2 c t c' hc ht =>
    have hscan := scan_relocate hg c
    rw [hc] at hscan
    rw [scanAll_of_endOfInput hc ht, scanAll_of_endOfInput hscan ht]
    rfl
  | case3 c t c' hc ht _ _ _ _ ih =>
    have hscan := scan_relocate hg c
    rw [hc] at hscan
    rw [scanAll_of_token hc ht, scanAll_of_token hscan ht, ih]
    cases c'.scanAll.1 <;> rfl

end Cursor

/-! ## Statements -/

namespace Program

variable {g : Position → Position}

/-- The place of the next of the tokens `ts`, or `last`, is moved by `g` with all of them. -/
theorem placeOf_relocate (g : Position → Position) (last : Position) (ts : List Token) :
    placeOf (g last) (ts.map (Token.relocate g)) = g (placeOf last ts) := by
  cases ts <;> rfl

/-- A refusal for a `problem` is moved by `g` with the tokens `ts` that it is reported at. -/
theorem refuse_relocate {α : Type} (g : Position → Position) (last : Position) (ts : List Token)
    (problem : SyntaxProblem) :
    (refuse (g last) (ts.map (Token.relocate g)) problem : Except SyntaxError α) =
      (refuse last ts problem).mapError (SyntaxError.relocate g) := by
  rw [refuse, placeOf_relocate]
  rfl

namespace Reading

variable {α β : Type} {p : Reading α} {q : α → Reading β}

/-- What comes of a reading, `x`, with the places of its tokens and of its error moved by `g`. -/
def relocated (g : Position → Position) (x : Except SyntaxError (α × List Token)) :
    Except SyntaxError (α × List Token) :=
  (x.map fun r => (r.1, r.2.map (Token.relocate g))).mapError (SyntaxError.relocate g)

/-- The reading `p` takes up the same tokens elsewhere, or refuses them for the same problem. -/
def Relocates (p : Reading α) : Prop :=
  ∀ g last ts, p (g last) (ts.map (Token.relocate g)) = relocated g (p last ts)

/-- A value `a` that needs no tokens is read the same elsewhere. -/
theorem relocates_pure (a : α) : Relocates fun _ ts => .ok (a, ts) := fun _ _ _ => rfl

/-- One reading after another, `p.bind q`, is the same elsewhere if both are. -/
theorem Relocates.bind (hp : p.Relocates) (hq : ∀ a, (q a).Relocates) :
    (p.bind q).Relocates := by
  intro g last ts
  rw [Reading.bind, Reading.bind, hp g last ts]
  cases p last ts with
  | error e => rfl
  | ok r => exact hq r.1 g last r.2

/-- A token is read by `one` the same elsewhere if the `check` of it is not about its place
(`hcheck`). -/
theorem relocates_one (missing : SyntaxProblem) {check : Token → Except SyntaxProblem α}
    (hcheck : ∀ g t, check (Token.relocate g t) = check t) : (one missing check).Relocates := by
  intro g last ts
  cases ts with
  | nil => rfl
  | cons t ts =>
    rw [List.map_cons, one, one, hcheck]
    cases check t <;> rfl

end Reading

open Sketch.Program.Reading

/-- The readings `p` of operands are the same elsewhere, as no check is about a place. -/
theorem Operands.relocates {α : Type} {p : Reading α} (h : Operands p) : p.Relocates := by
  induction h with
  | none a => exact relocates_pure a
  | number _ | colorKeyword | color | penAction => exact relocates_one _ fun _ _ => rfl
  | bind _ _ ihp ihq => exact ihp.bind ihq

/-- A refusal for a `problem` is the same elsewhere. -/
theorem relocates_refuse {α : Type} (problem : SyntaxProblem) :
    Relocates fun last ts => (refuse last ts problem : Except SyntaxError (α × List Token)) := by
  intro g last ts
  exact (refuse_relocate g last ts problem).trans rfl

/-- A shape that `draw` reads is the same elsewhere. -/
theorem relocates_draw : Relocates draw := by
  intro g last ts
  cases ts with
  | nil => rfl
  | cons t ts =>
    have hkind : (Token.relocate g t).kind = t.kind := rfl
    have htext : (Token.relocate g t).text = t.text := rfl
    rw [List.map_cons]
    simp only [draw, hkind, htext]
    split
    · exact relocates_refuse .shapeExpected g last (t :: ts)
    split
    · exact operands_line.relocates g last ts
    split
    · exact operands_circle.relocates g last ts
    split
    · exact operands_rectangle.relocates g last ts
    · exact relocates_refuse (.unknownShape t.text) g last ts

/-- A statement that `action` reads is the same elsewhere, whatever its `word` is. -/
theorem relocates_action (word : Text) : Relocates fun last ts => action last word ts := by
  unfold action
  split
  · exact relocates_draw
  split
  · exact operands_set.relocates
  split
  · exact relocates_pure Action.clear
  split
  · exact operands_move.relocates
  split
  · exact operands_pen.relocates
  · exact relocates_refuse _

/-- The `statements` of a program are the same elsewhere: the places of tokens, commands and the
error are moved by `g`. -/
theorem statements_relocate (g : Position → Position) (last : Position) (ts : List Token) :
    statements (g last) (ts.map (Token.relocate g)) =
      ((statements last ts).map (List.map (Command.relocate g))).mapError
        (SyntaxError.relocate g) := by
  induction ts using statements.induct last with
  | case1 =>
    rw [List.map_nil, statements_nil, statements_nil]
    rfl
  | case2 t rest hend =>
    have hend' : (Token.relocate g t).kind = .endOfInput := hend
    rw [List.map_cons, statements_of_endOfInput hend, statements_of_endOfInput hend']
    rfl
  | case3 t rest hend hkind =>
    have hend' : (Token.relocate g t).kind ≠ .endOfInput := hend
    rw [List.map_cons, statements_of_kind_ne hend hkind, statements_of_kind_ne hend' hkind]
    rfl
  -- The refusal of one statement is moved, and so is that of the program.
  | case4 t rest hend hkind e he =>
    have ht : t.kind = .keyword := not_not.mp hkind
    have ht' : (Token.relocate g t).kind = .keyword := ht
    have haction : action (g last) t.text (rest.map (Token.relocate g)) = .error (e.relocate g) :=
      (relocates_action t.text g last rest).trans (congrArg (relocated g) he)
    rw [List.map_cons, statements_of_refusal ht' haction, statements_of_refusal ht he]
    rfl
  | case5 t rest hend hkind a after ha hlt ih =>
    have ht : t.kind = .keyword := not_not.mp hkind
    have ht' : (Token.relocate g t).kind = .keyword := ht
    have haction : action (g last) t.text (rest.map (Token.relocate g)) =
        .ok (a, after.map (Token.relocate g)) :=
      (relocates_action t.text g last rest).trans (congrArg (relocated g) ha)
    rw [List.map_cons, statements_of_action ht' haction, ih, statements_of_action ht ha]
    cases statements last after <;> rfl

end Program

end Sketch
