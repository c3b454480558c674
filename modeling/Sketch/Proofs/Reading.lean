import Sketch.Proofs.Grammar

/-!
# Predictive readings

A reading takes up tokens at the head of a list, or refuses them. It is predictive
(`Reading.Predictive`) if it never looks beyond the tokens that it takes up, and if it stops at the
first token that rules out what it was to read: the tokens before that one can still be completed,
and no continuation of the tokens up to it can. Reading one token by a check is predictive
(`predictive_one`), and so is one predictive reading after another (`Predictive.bind`).

The operands of every statement are read by a few such checks, one after another (`Operands`), so
what holds of the checks and is kept by `bind` holds of all of them. They are read predictively
(`Operands.predictive`). Only the name of a shape is left out: where it is wrong, the place that is
reported is that of the token after it.
-/

namespace Sketch

/-- The problem is a word that names no command, or one that names no shape: the two problems that
are reported at the token after the offending one. -/
@[simp]
def SyntaxProblem.isUnknownWord : SyntaxProblem → Bool
  | unknownCommand _ | unknownShape _ => true
  | _ => false

namespace Program

/-- A reading of the tokens at the head of a list, such as `number` or `draw`: it gives a value and
the tokens that are left, or an error. The place is the one to report once no token is left. -/
abbrev Reading (α : Type) := Position → List Token → Except SyntaxError (α × List Token)

namespace Reading

variable {α β : Type} {p : Reading α} {q : α → Reading β} {ts us : List Token} {a : α} {b : β}
  {problem : SyntaxProblem}

/-- The reading `p` takes up the tokens `ts` with the value `a`, and leaves whatever follows them.
-/
def Takes (p : Reading α) (ts : List Token) (a : α) : Prop :=
  ∀ last rest, p last (ts ++ rest) = .ok (a, rest)

/-- The reading `p` refuses the tokens `ts` for the given `problem`, whatever follows them. Only the
place of the error may depend on that. -/
def Refuses (p : Reading α) (ts : List Token) (problem : SyntaxProblem) : Prop :=
  ∀ last rest, ∃ place, p last (ts ++ rest) = .error ⟨problem, place⟩

/-- The reading `p` stops between the tokens `read` and the tokens `ahead`: it can take up `read`
with some continuation, but it refuses `read` with the first token of `ahead` after it, for the
given `problem`. -/
structure Stops (p : Reading α) (read ahead : List Token) (problem : SyntaxProblem) : Prop where
  completes : ∃ us a, p.Takes (read ++ us) a
  refuses : ∀ t ∈ ahead.head?, p.Refuses (read ++ [t]) problem

/-- The reading `p` looks no further than what it takes up, and it stops at the first token that it
can make nothing of, where it reports its error. -/
structure Predictive (p : Reading α) : Prop where
  /-- There is something that the reading takes up. -/
  completes : ∃ us a, p.Takes us a
  /-- The reading does not look beyond what it takes up. -/
  takes : ∀ {last ts a rest}, p last ts = .ok (a, rest) → ∃ head, ts = head ++ rest ∧ p.Takes head a
  /-- The reading refuses the first token that it can make nothing of. -/
  stops : ∀ {last ts e}, p last ts = .error e → ∃ read ahead, ts = read ++ ahead ∧
    p.Stops read ahead e.problem ∧ e.position = placeOf last ahead ∧ ¬ e.problem.isUnknownWord

/-- The reading `p`, and after it the reading `q a` of the tokens that `p` leaves, for the value `a`
that `p` gives. -/
def bind (p : Reading α) (q : α → Reading β) : Reading β :=
  fun last ts => p last ts >>= fun r => q r.1 last r.2

/-- If `p` gives `a` and leaves `rest`, then `p.bind q` reads on as `q a` does on `rest`. -/
theorem bind_of_ok {last : Position} {rest : List Token} (h : p last ts = .ok (a, rest)) :
    p.bind q last ts = q a last rest := by
  rw [bind, h]
  rfl

/-- If `p` takes up `ts` with `a` and `q a` takes up `us`, then `p.bind q` takes up `ts ++ us`. -/
theorem Takes.bind (hp : p.Takes ts a) (hq : (q a).Takes us b) : (p.bind q).Takes (ts ++ us) b := by
  intro last rest
  rw [List.append_assoc, bind_of_ok (hp last _), hq last rest]

/-- If `p` takes up `ts` with `a` and `q a` refuses `us`, then `p.bind q` refuses `ts ++ us` for the
same `problem`. -/
theorem Takes.bind_refuses (hp : p.Takes ts a) (hq : (q a).Refuses us problem) :
    (p.bind q).Refuses (ts ++ us) problem := by
  intro last rest
  rw [List.append_assoc, bind_of_ok (hp last _)]
  exact hq last rest

/-- What `p` refuses, `p.bind q` refuses for the same `problem`, whatever `q` is. -/
theorem Refuses.bind (hp : p.Refuses ts problem) : (p.bind q).Refuses ts problem := by
  intro last rest
  obtain ⟨place, h⟩ := hp last rest
  refine ⟨place, ?_⟩
  rw [Reading.bind, h]
  rfl

/-- The reading that takes up no token and gives the value `a` is `Predictive`: it never stops. -/
theorem predictive_pure (a : α) : Predictive fun _ ts => .ok (a, ts) where
  completes := ⟨[], a, fun _ _ => rfl⟩
  takes h := by
    obtain ⟨rfl, rfl⟩ := Prod.mk.inj (Except.ok.inj h)
    exact ⟨[], rfl, fun _ _ => rfl⟩
  stops h := by simp at h

/-- If `p` is `Predictive`, and `q a` is for every `a`, then so is `p.bind q`. Its errors are those
of `p`, or those of `q a` behind what `p` takes up. -/
theorem Predictive.bind (hp : p.Predictive) (hq : ∀ a, (q a).Predictive) :
    (p.bind q).Predictive where
  completes := by
    obtain ⟨us, a, hus⟩ := hp.completes
    obtain ⟨vs, b, hvs⟩ := (hq a).completes
    exact ⟨us ++ vs, b, hus.bind hvs⟩
  takes h := by
    obtain ⟨⟨a, mid⟩, ha, hb⟩ := bind_eq_ok_iff.mp h
    obtain ⟨first, rfl, hfirst⟩ := hp.takes ha
    obtain ⟨second, rfl, hsecond⟩ := (hq a).takes hb
    exact ⟨first ++ second, (List.append_assoc ..).symm, hfirst.bind hsecond⟩
  stops {last ts e} h := by
    cases hpts : p last ts with
    | error e' =>
      -- The first reading stops, and what completes it is followed by what completes the second.
      have he : e' = e := by
        rw [Reading.bind, hpts] at h
        exact Except.error.inj h
      subst he
      obtain ⟨read, ahead, rfl, ⟨⟨us, a, hus⟩, hrefuses⟩, hplace, hknown⟩ := hp.stops hpts
      obtain ⟨vs, b, hvs⟩ := (hq a).completes
      refine ⟨read, ahead, rfl, ⟨⟨us ++ vs, b, ?_⟩, fun t ht => (hrefuses t ht).bind⟩, hplace,
        hknown⟩
      rw [← List.append_assoc]
      exact hus.bind hvs
    | ok r =>
      -- The second reading stops, after all that the first one took up.
      obtain ⟨a, mid⟩ := r
      rw [bind_of_ok hpts] at h
      obtain ⟨first, rfl, hfirst⟩ := hp.takes hpts
      obtain ⟨read, ahead, rfl, ⟨⟨us, b, hus⟩, hrefuses⟩, hplace, hknown⟩ := (hq a).stops h
      refine ⟨first ++ read, ahead, (List.append_assoc ..).symm, ⟨⟨us, b, ?_⟩, ?_⟩, hplace, hknown⟩
      · rw [List.append_assoc]
        exact hfirst.bind hus
      · intro t ht
        rw [List.append_assoc]
        exact hfirst.bind_refuses (hrefuses t ht)

/-- The reading of one token by a `check`, which gives a value or tells what is wrong with the
token. If no token is left, the problem is `missing`. -/
def one (missing : SyntaxProblem) (check : Token → Except SyntaxProblem α) : Reading α
  | last, [] => refuse last [] missing
  | last, t :: rest =>
    match check t with
    | .ok a => .ok (a, rest)
    | .error problem => refuse last (t :: rest) problem

/-- The reading `one` of a `check` is `Predictive` if some token passes the check (`hpass`), and if
neither `missing` nor an error of the check is an unknown word. -/
theorem predictive_one {missing : SyntaxProblem} {check : Token → Except SyntaxProblem α}
    (hpass : ∃ t a, check t = .ok a) (hmissing : ¬ missing.isUnknownWord)
    (hcheck : ∀ {t problem}, check t = .error problem → ¬ problem.isUnknownWord) :
    (one missing check).Predictive := by
  have takes : ∀ {t a}, check t = .ok a → (one missing check).Takes [t] a := by
    intro t a ht last rest
    rw [List.singleton_append, one, ht]
  refine ⟨?_, ?_, ?_⟩
  · obtain ⟨t, a, ht⟩ := hpass
    exact ⟨[t], a, takes ht⟩
  · intro last ts a rest h
    cases ts with
    | nil => exact absurd h (refuse_ne_ok _ _ _ _)
    | cons t ts =>
      cases ht : check t with
      | error problem =>
        rw [one, ht] at h
        exact absurd h (refuse_ne_ok _ _ _ _)
      | ok b =>
        rw [one, ht] at h
        obtain ⟨rfl, rfl⟩ := Prod.mk.inj (Except.ok.inj h)
        exact ⟨[t], rfl, takes ht⟩
  · intro last ts e h
    -- Nothing was taken up yet, and any token that passes the check would complete the reading.
    obtain ⟨u, a, hu⟩ := hpass
    have hcompletes : ∃ us a, (one missing check).Takes ([] ++ us) a := ⟨[u], a, takes hu⟩
    cases ts with
    | nil =>
      obtain rfl := Except.error.inj h
      exact ⟨[], [], rfl, ⟨hcompletes, by simp⟩, rfl, hmissing⟩
    | cons t ts =>
      cases ht : check t with
      | ok b =>
        rw [one, ht] at h
        simp at h
      | error problem =>
        rw [one, ht] at h
        obtain rfl := Except.error.inj h
        refine ⟨[], t :: ts, rfl, ⟨hcompletes, ?_⟩, rfl, hcheck ht⟩
        intro t' ht' last' rest
        obtain rfl : t = t' := by simpa using ht'
        refine ⟨t.position, ?_⟩
        rw [List.nil_append, List.singleton_append, one, ht]
        rfl

end Reading

/-! ## The operands of statements -/

open Sketch.Program.Reading

/-- The number that the token `t` stands for, or why it stands for none as an operand of the
`statement`. -/
def numberOf (statement : NumericStatement) (t : Token) : Except SyntaxProblem Binary64 :=
  if t.kind = .number then
    match Binary64.ofLiteral? t.text with
    | some x => .ok x
    | none => .error (.invalidNumber t.text)
  else .error (.numberExpected statement)

/-- The check that the token `t` is the word `color`, in any case of letters and of any kind but the
end marker. -/
def colorKeywordOf (t : Token) : Except SyntaxProblem Unit :=
  if t.kind ≠ .endOfInput ∧ t.text.alike (ascii "color") then .ok ()
  else .error .colorKeywordExpected

/-- The action that sets the color which the token `t` names, if `t` is a color name or a string
literal. -/
def colorOf (t : Token) : Except SyntaxProblem Action :=
  if t.kind = .colorName ∨ t.kind = .string then .ok (.setColor t.text)
  else .error .colorNameExpected

/-- What the token `t` asks of the pen: the words `up` and `down` in small letters, of any kind but
the end marker. -/
def penActionOf (t : Token) : Except SyntaxProblem Action :=
  if t.kind = .endOfInput then .error .penActionExpected
  else if t.text = ascii "up" then .ok .penUp
  else if t.text = ascii "down" then .ok .penDown
  else .error (.unknownPenAction t.text)

/-- The reading `number` checks one token by `numberOf`. -/
theorem number_eq_one (statement : NumericStatement) :
    (fun last ts => number last statement ts) =
      one (.numberExpected statement) (numberOf statement) := by
  funext last ts
  cases ts with
  | nil => rfl
  | cons t ts =>
    by_cases hkind : t.kind = .number
    · simp only [number, one, numberOf, hkind, if_true]
      cases Binary64.ofLiteral? t.text <;> rfl
    · simp only [number, one, numberOf, hkind, if_false]

/-- The reading `set` checks one token by `colorKeywordOf` and the next one by `colorOf`. -/
theorem set_eq_bind :
    set = (one .colorKeywordExpected colorKeywordOf).bind fun _ =>
      one .colorNameExpected colorOf := by
  funext last ts
  cases ts with
  | nil => rfl
  | cons t ts =>
    by_cases hcolor : t.kind ≠ .endOfInput ∧ t.text.alike (ascii "color")
    · -- The word `color` is there, so that what is left is the second check.
      have hone : one .colorKeywordExpected colorKeywordOf last (t :: ts) = .ok ((), ts) := by
        simp only [one, colorKeywordOf, if_pos hcolor]
      rw [bind_of_ok hone]
      simp only [set, if_pos hcolor]
      cases ts with
      | nil => rfl
      | cons c ts =>
        by_cases hname : c.kind = .colorName ∨ c.kind = .string
        · simp only [one, colorOf, if_pos hname]
        · simp only [one, colorOf, if_neg hname]
    · simp only [set, Reading.bind, one, colorKeywordOf, if_neg hcolor]
      rfl

/-- The reading `pen` checks one token by `penActionOf`. -/
theorem pen_eq_one : pen = one .penActionExpected penActionOf := by
  funext last ts
  cases ts with
  | nil => rfl
  | cons t ts =>
    simp only [pen, one, penActionOf]
    by_cases hend : t.kind = .endOfInput
    · simp only [if_pos hend]
    · by_cases hup : t.text = ascii "up"
      · simp only [if_neg hend, if_pos hup]
      · by_cases hdown : t.text = ascii "down"
        · simp only [if_neg hend, if_neg hup, if_pos hdown]
        · simp only [if_neg hend, if_neg hup, if_neg hdown]

/-- The readings of operands: they need no tokens, check one token by `one`, or are put one after
another by `Reading.bind`. A fact about all of them is proved by induction with one case for each
check. -/
inductive Operands : {α : Type} → Reading α → Prop where
  | none {α : Type} (a : α) : Operands fun _ ts => .ok (a, ts)
  | number (statement : NumericStatement) :
    Operands (one (.numberExpected statement) (numberOf statement))
  | colorKeyword : Operands (one .colorKeywordExpected colorKeywordOf)
  | color : Operands (one .colorNameExpected colorOf)
  | penAction : Operands (one .penActionExpected penActionOf)
  | bind {α β : Type} {p : Reading α} {q : α → Reading β} :
    Operands p → (∀ a, Operands (q a)) → Operands (p.bind q)

/-- The reading `number` of one operand is among the `Operands`, for every `statement`. -/
theorem operands_number (statement : NumericStatement) :
    Operands fun last ts => number last statement ts := by
  rw [number_eq_one]
  exact .number statement

/-- The reading `line` of four numbers is among the `Operands`. -/
theorem operands_line : Operands line :=
  (operands_number .drawLine).bind fun x1 => (operands_number .drawLine).bind fun y1 =>
    (operands_number .drawLine).bind fun x2 => (operands_number .drawLine).bind fun y2 =>
      .none (Action.drawLine x1 y1 x2 y2)

/-- The reading `circle` of three numbers is among the `Operands`. -/
theorem operands_circle : Operands circle :=
  (operands_number .drawCircle).bind fun x => (operands_number .drawCircle).bind fun y =>
    (operands_number .drawCircle).bind fun radius => .none (Action.drawCircle x y radius)

/-- The reading `rectangle` of four numbers is among the `Operands`. -/
theorem operands_rectangle : Operands rectangle :=
  (operands_number .drawRectangle).bind fun x => (operands_number .drawRectangle).bind fun y =>
    (operands_number .drawRectangle).bind fun width =>
      (operands_number .drawRectangle).bind fun height =>
        .none (Action.drawRectangle x y width height)

/-- The reading `move` of two numbers is among the `Operands`. -/
theorem operands_move : Operands move :=
  (operands_number .move).bind fun x => (operands_number .move).bind fun y =>
    .none (Action.move x y)

/-- The reading `set` is among the `Operands`, as two checks by `set_eq_bind`. -/
theorem operands_set : Operands set := by
  rw [set_eq_bind]
  exact Operands.colorKeyword.bind fun _ => .color

/-- The reading `pen` is among the `Operands`, as one check by `pen_eq_one`. -/
theorem operands_pen : Operands pen := by
  rw [pen_eq_one]
  exact .penAction

/-- A reading `p` of operands is `Predictive`, by induction on how it is put together. -/
theorem Operands.predictive {α : Type} {p : Reading α} (h : Operands p) : p.Predictive := by
  induction h with
  | none a => exact predictive_pure a
  | number statement =>
    -- Each check needs one token that passes it, here the numeral `0`, and an error that is no
    -- unknown word.
    have hdigits : ∀ b ∈ ascii "0", Byte.isDigit b := List.all_eq_true.mp (by decide)
    have hzero : IsNumeral (ascii "0") := (isNumeral_digits hdigits).mpr (by decide)
    refine predictive_one ⟨⟨.number, ascii "0", .start⟩, .ofNumeral (ascii "0"), ?_⟩ (by simp) ?_
    · simp [numberOf, Binary64.ofLiteral?_eq_some_iff.mpr ⟨hzero, rfl⟩]
    · intro t problem h
      unfold numberOf at h
      split at h
      · split at h
        · simp at h
        · obtain rfl := Except.error.inj h
          simp
      · obtain rfl := Except.error.inj h
        simp
  | colorKeyword =>
    refine predictive_one ⟨⟨.keyword, ascii "color", .start⟩, (), by decide⟩ (by simp) ?_
    intro t problem h
    unfold colorKeywordOf at h
    split at h
    · simp at h
    · obtain rfl := Except.error.inj h
      simp
  | color =>
    refine predictive_one ⟨⟨.string, [], .start⟩, .setColor [], by decide⟩ (by simp) ?_
    intro t problem h
    unfold colorOf at h
    split at h
    · simp at h
    · obtain rfl := Except.error.inj h
      simp
  | penAction =>
    -- The three problems of `penActionOf` are told apart, and none of them is an unknown word.
    refine predictive_one ⟨⟨.keyword, ascii "up", .start⟩, .penUp, by decide⟩ (by simp) ?_
    intro t problem h
    unfold penActionOf at h
    split at h
    · obtain rfl := Except.error.inj h
      simp
    split at h
    · simp at h
    split at h
    · simp at h
    · obtain rfl := Except.error.inj h
      simp
  | bind _ _ ihp ihq => exact ihp.bind ihq

/-- After a keyword `t`, the reading `action` reads a shape, reads the `Operands` of another
statement, or reports that `t` names no command. -/
theorem action_cases {t : Token} (ht : t.kind = .keyword) :
    t.IsKeyword "draw" ∨
      (∃ p : Reading Action, Operands p ∧ ∀ last us, action last t.text us = p last us) ∨
      ∀ last us, action last t.text us = refuse last us (.unknownCommand t.text) := by
  -- `draw` stands apart, since its second word chooses the operands.
  by_cases hdraw : t.text = ascii "draw"
  · exact .inl ⟨ht, hdraw⟩
  refine .inr ?_
  by_cases hset : t.text = ascii "set"
  · exact .inl ⟨set, operands_set, action_set ⟨ht, hset⟩⟩
  by_cases hclear : t.text = ascii "clear"
  · exact .inl ⟨_, .none .clear, action_clear ⟨ht, hclear⟩⟩
  by_cases hmove : t.text = ascii "move"
  · exact .inl ⟨move, operands_move, action_move ⟨ht, hmove⟩⟩
  by_cases hpen : t.text = ascii "pen"
  · exact .inl ⟨pen, operands_pen, action_pen ⟨ht, hpen⟩⟩
  · refine .inr fun last us => ?_
    simp [action, hdraw, hset, hclear, hmove, hpen]

/-- After `draw` and a keyword `t`, the reading `draw` reads the `Operands` of a shape, or reports
that `t` names no shape. -/
theorem draw_cases {t : Token} (ht : t.kind = .keyword) :
    (∃ p : Reading Action, Operands p ∧ ∀ last us, draw last (t :: us) = p last us) ∨
      ∀ last us, draw last (t :: us) = refuse last us (.unknownShape t.text) := by
  by_cases hline : t.text = ascii "line"
  · exact .inl ⟨line, operands_line, draw_line ⟨ht, hline⟩⟩
  by_cases hcircle : t.text = ascii "circle"
  · exact .inl ⟨circle, operands_circle, draw_circle ⟨ht, hcircle⟩⟩
  by_cases hrectangle : t.text = ascii "rectangle"
  · exact .inl ⟨rectangle, operands_rectangle, draw_rectangle ⟨ht, hrectangle⟩⟩
  · refine .inr fun last us => ?_
    simp [draw, ht, hline, hcircle, hrectangle]

end Program

end Sketch
