import Sketch.Proofs.Reading

/-!
# Where a program is refused

Tokens are viable if they can be continued to a program. The token that offends is the first one
with which the tokens read so far are no longer viable. `Program.position_of_refusal` says where a
refusal is reported: at the token that offends, or at the last token if none does and the program
merely ends too early. The exception are words that stand where a command or a shape is to be named
and that name none (`NameExpected`): they are reported at the token after them, if there is one
(`Program.refusal_beside_offender`).

The statements that are read hand on how the next one is refused (`RefusedAt`): what comes before
the place of the refusal is viable, and the token at that place is refused with the same problem
whatever follows it. For the operands of a statement this is what a predictive reading gives.
-/

namespace Sketch

namespace Program

/-- The tokens `ts` are a program. -/
def Accepted (ts : List Token) : Prop := ∃ cs, ofTokens ts = .ok cs

/-- The tokens `ts` can be continued by some tokens `us` to a program. -/
def Viable (ts : List Token) : Prop := ∃ us, Accepted (ts ++ us)

/-- The token `t` offends after the tokens `before`: it is the first with which no continuation is a
program. -/
structure Offends (before : List Token) (t : Token) : Prop where
  /-- Everything before the token can be continued to a program. -/
  viable : ∀ start, start <+: before → Viable start
  /-- Nothing that goes on with the token is a program. -/
  not_viable : ¬ Viable (before ++ [t])

/-- The token after the tokens `before` is to name a command, or a shape to draw. -/
def NameExpected (before : List Token) : Prop :=
  Accepted before ∨ ∃ program draw, before = program ++ [draw] ∧ Accepted program ∧
    draw.IsKeyword "draw"

/-- The first tokens `ts` of viable ones are viable, with the others as a part of the continuation.
-/
theorem Viable.of_append {ts us : List Token} (h : Viable (ts ++ us)) : Viable ts := by
  obtain ⟨vs, hvs⟩ := h
  exact ⟨us ++ vs, by rwa [← List.append_assoc]⟩

/-- Reading `statements` succeeds whatever place is to be reported at the end, with the same
commands. -/
theorem statements_ok_of_ok {last last' : Position} {ts : List Token} {cs : List Command}
    (h : statements last ts = .ok cs) : statements last' ts = .ok cs := by
  obtain ⟨pieces, hflat, hall⟩ := statements_sound h
  exact statements_complete hflat hall last'

/-- The tokens `ts` are a program exactly if their `statements` are read, with any place `last` to
report at the end. -/
theorem accepted_iff (last : Position) {ts : List Token} :
    Accepted ts ↔ ∃ cs, statements last ts = .ok cs :=
  exists_congr fun _ => ⟨statements_ok_of_ok, statements_ok_of_ok⟩

/-- No tokens are a program, one without commands. -/
theorem accepted_nil : Accepted [] := ⟨[], statements_nil _⟩

/-- Reading goes on after a program `before` as it does at the start, if there is no end marker in
it. -/
theorem Accepted.statements_append {before : List Token} (h : Accepted before)
    (hend : ∀ t ∈ before, t.kind ≠ .endOfInput) :
    ∃ cs, ∀ last rest, statements last (before ++ rest) = (statements last rest).map (cs ++ ·) := by
  obtain ⟨cs, hcs⟩ := h
  exact ⟨cs, statements_append_of_ok hcs hend⟩

/-! ## How a statement is refused -/

/-- How reading the tokens `read ++ ahead` is refused with the error `e`: before the tokens `ahead`
there was still a program to come, and the next of them is refused whatever follows it. A word that
names nothing is reported at the token after it. -/
structure RefusedAt (last : Position) (e : SyntaxError) (read ahead : List Token) : Prop where
  viable : Viable read
  refuses : ∀ t ∈ ahead.head?, ∀ last us, ∃ place,
    statements last (read ++ t :: us) = .error ⟨e.problem, place⟩
  position : e.position = placeOf last (if e.problem.isUnknownWord then ahead.tail else ahead)
  name : e.problem.isUnknownWord → NameExpected read ∧ ∃ t ∈ ahead.head?, t.kind = .keyword

variable {last : Position} {t : Token} {ts : List Token} {p : Reading Action} {e : SyntaxError}

/-- A keyword `t`, some `words` after it and all its operands `us` are viable, as they are a
statement. -/
theorem viable_of_takes (words : List Token) {us : List Token} {a : Action} (ht : t.kind = .keyword)
    (haction : ∀ last us, action last t.text (words ++ us) = p last us) (hus : p.Takes us a) :
    Viable (t :: words ++ us) := by
  refine ⟨[], (accepted_iff .start).mpr ⟨[⟨a, t.position⟩], ?_⟩⟩
  have h : action .start t.text (words ++ (us ++ [])) = .ok (a, []) := by
    rw [haction, hus .start []]
  rw [List.append_assoc, List.cons_append, statements_of_action ht h, statements_nil]
  rfl

/-- Where a predictive reading `p` after a keyword `t` and some `words` stops, the statement is
refused (`RefusedAt`). -/
theorem refusedAt_of_predictive (words : List Token) (ht : t.kind = .keyword)
    (haction : ∀ last us, action last t.text (words ++ us) = p last us) (hp : p.Predictive)
    (h : p last ts = .error e) :
    ∃ read ahead, t :: (words ++ ts) = read ++ ahead ∧ RefusedAt last e read ahead := by
  obtain ⟨read, ahead, rfl, ⟨⟨us, a, hus⟩, hrefuses⟩, hplace, hknown⟩ := hp.stops h
  refine ⟨t :: (words ++ read), ahead, by simp,
    ⟨?_, ?_, ?_, fun hunknown => absurd hunknown hknown⟩⟩
  · -- What was read can be continued to a statement, hence to a program.
    have hviable := viable_of_takes words ht haction hus
    rw [← List.append_assoc] at hviable
    exact hviable.of_append
  · intro u hu last' vs
    obtain ⟨place, hpl⟩ := hrefuses u hu last' vs
    refine ⟨place, ?_⟩
    rw [List.cons_append, List.append_assoc, statements_of_refusal ht]
    rw [haction, ← hpl, List.append_assoc, List.singleton_append]
  · rw [if_neg hknown]
    exact hplace

/-- The word `draw` is viable, as any shape can follow it. -/
theorem viable_draw (ht : t.IsKeyword "draw") : Viable [t] := by
  obtain ⟨us, a, hus⟩ := operands_line.predictive.completes
  have hline : (⟨.keyword, ascii "line", .start⟩ : Token).IsKeyword "line" := ⟨rfl, rfl⟩
  have hviable : Viable ([t] ++ ⟨.keyword, ascii "line", .start⟩ :: us) :=
    viable_of_takes [⟨.keyword, ascii "line", .start⟩] ht.1
      (fun last us => (action_draw ht last _).trans (draw_line hline last us)) hus
  exact hviable.of_append

/-- How a `draw` statement is refused: for a missing or an unknown shape, or within its numbers. -/
theorem refusedAt_of_draw (ht : t.IsKeyword "draw") (h : draw last ts = .error e) :
    ∃ read ahead, t :: ts = read ++ ahead ∧ RefusedAt last e read ahead := by
  cases ts with
  | nil =>
    obtain rfl := Except.error.inj h
    exact ⟨[t], [], rfl, viable_draw ht, by simp, rfl, by simp⟩
  | cons shape rest =>
    -- A name that is refused whatever follows it stands after the word `draw` alone.
    have refuses : ∀ {problem}, (∀ last us, ∃ place, draw last (shape :: us) =
        .error ⟨problem, place⟩) → ∀ u ∈ (shape :: rest).head?, ∀ last us, ∃ place,
          statements last ([t] ++ u :: us) = .error ⟨problem, place⟩ := by
      intro problem hproblem u hu last' us
      obtain rfl : shape = u := by simpa using hu
      obtain ⟨place, hplace⟩ := hproblem last' us
      exact ⟨place, statements_of_refusal ht.1 ((action_draw ht last' _).trans hplace)⟩
    -- A keyword names a shape or none, and any other token is no name at all.
    by_cases hkind : shape.kind = .keyword
    · obtain ⟨p, hp, hdraw⟩ | hdraw := draw_cases hkind
      · rw [hdraw] at h
        exact refusedAt_of_predictive [shape] ht.1
          (fun last us => (action_draw ht last _).trans (hdraw last us)) hp.predictive h
      · obtain rfl := Except.error.inj ((hdraw last rest).symm.trans h)
        exact ⟨[t], shape :: rest, rfl, viable_draw ht, refuses fun last us => ⟨_, hdraw last us⟩,
          rfl, fun _ => ⟨.inr ⟨[], t, rfl, accepted_nil, ht⟩, shape, rfl, hkind⟩⟩
    · have hdraw : ∀ last us, draw last (shape :: us) =
          refuse last (shape :: us) .shapeExpected := by
        intro last us
        simp [draw, hkind]
      obtain rfl := Except.error.inj ((hdraw last rest).symm.trans h)
      exact ⟨[t], shape :: rest, rfl, viable_draw ht, refuses fun last us => ⟨_, hdraw last us⟩,
        rfl, by simp⟩

/-- How a statement with the keyword `t` is refused, by the cases of `action_cases`. -/
theorem refusedAt_of_action (ht : t.kind = .keyword) (h : action last t.text ts = .error e) :
    ∃ read ahead, t :: ts = read ++ ahead ∧ RefusedAt last e read ahead := by
  obtain hdraw | ⟨p, hp, haction⟩ | haction := action_cases ht
  · rw [action_draw hdraw] at h
    exact refusedAt_of_draw hdraw h
  · rw [haction] at h
    exact refusedAt_of_predictive [] ht haction hp.predictive h
  · obtain rfl := Except.error.inj ((haction last ts).symm.trans h)
    refine ⟨[], t :: ts, rfl, ⟨[], accepted_nil⟩, ?_, rfl,
      fun _ => ⟨.inl accepted_nil, t, rfl, ht⟩⟩
    intro u hu last' us
    obtain rfl : t = u := by simpa using hu
    exact ⟨_, statements_of_refusal ht (haction last' us)⟩

/-! ## How a program is refused -/

section Piece

variable {piece : List Token} {c : Command}
  (hpiece : ∀ last us, statements last (piece ++ us) = (statements last us).map (c :: ·))
include hpiece

/-- Behind a statement `piece`, the tokens `ts` are as much a program as they are alone. -/
theorem accepted_append_iff : Accepted (piece ++ ts) ↔ Accepted ts := by
  rw [accepted_iff .start, accepted_iff .start, hpiece]
  constructor
  · rintro ⟨cs, hcs⟩
    obtain ⟨ds, hds, -⟩ := map_eq_ok_iff.mp hcs
    exact ⟨ds, hds⟩
  · rintro ⟨cs, hcs⟩
    exact ⟨c :: cs, map_eq_ok_iff.mpr ⟨cs, hcs, rfl⟩⟩

/-- Behind a statement `piece`, the tokens `ts` can be continued to a program if they can be alone.
-/
theorem viable_append_iff : Viable (piece ++ ts) ↔ Viable ts := by
  refine exists_congr fun us => ?_
  rw [List.append_assoc, accepted_append_iff hpiece]

/-- A statement `piece` before a refusal does not change it. -/
theorem RefusedAt.after_statement {read ahead : List Token} (h : RefusedAt last e read ahead) :
    RefusedAt last e (piece ++ read) ahead := by
  refine ⟨(viable_append_iff hpiece).mpr h.viable, ?_, h.position, ?_⟩
  · intro u hu last' us
    obtain ⟨place, hplace⟩ := h.refuses u hu last' us
    refine ⟨place, ?_⟩
    rw [List.append_assoc, hpiece, hplace]
    rfl
  · intro hunknown
    obtain ⟨hname, hkeyword⟩ := h.name hunknown
    refine ⟨?_, hkeyword⟩
    obtain hread | ⟨program, draw, rfl, hprogram, hdraw⟩ := hname
    · exact .inl ((accepted_append_iff hpiece).mpr hread)
    · exact .inr ⟨piece ++ program, draw, by simp, (accepted_append_iff hpiece).mpr hprogram, hdraw⟩

end Piece

/-- How a program `ts` is refused, by induction over its statements. -/
theorem refusedAt_of_statements (h : statements last ts = .error e) :
    ∃ read ahead, ts = read ++ ahead ∧ RefusedAt last e read ahead := by
  induction ts using statements.induct last with
  | case1 => simp at h
  | case2 t rest hend => simp [statements_of_endOfInput hend] at h
  | case3 t rest hend hkind =>
    obtain rfl := Except.error.inj ((statements_of_kind_ne hend hkind).symm.trans h)
    refine ⟨[], t :: rest, rfl, ⟨[], accepted_nil⟩, ?_, rfl, by simp⟩
    intro u hu last' us
    obtain rfl : t = u := by simpa using hu
    exact ⟨_, statements_of_kind_ne hend hkind⟩
  | case4 t rest hend hkind e' he =>
    rw [statements_of_refusal (not_not.mp hkind) he] at h
    obtain rfl := Except.error.inj h
    exact refusedAt_of_action (not_not.mp hkind) he
  | case5 t rest hend hkind a after ha hlt ih =>
    -- The refusal comes in the statements after this one, which only puts its command in front.
    have ht := not_not.mp hkind
    obtain ⟨operands, rfl, hops, hstatement⟩ := statement_of_action ht ha
    have hpiece := statements_of_statement hstatement (List.forall_mem_cons.mpr ⟨hend, hops⟩)
    rw [← List.cons_append, hpiece, map_eq_error_iff] at h
    obtain ⟨read, ahead, rfl, hrefused⟩ := ih h
    exact ⟨t :: operands ++ read, ahead, by simp, RefusedAt.after_statement hpiece hrefused⟩

/-- A token `t` that is refused after viable tokens `read`, whatever follows it (`hrefuses`),
offends. -/
theorem Offends.of_refuses {read : List Token} (hviable : Viable read) (last : Position)
    (hrefuses : ∀ us, ∃ e, statements last (read ++ t :: us) = .error e) : Offends read t where
  viable := by
    rintro start ⟨rest, rfl⟩
    exact hviable.of_append
  not_viable := by
    rintro ⟨us, hus⟩
    obtain ⟨cs, hcs⟩ := (accepted_iff last).mp hus
    obtain ⟨e, he⟩ := hrefuses us
    rw [List.append_assoc, List.singleton_append, he] at hcs
    simp at hcs

/-- The token `t` ahead where a program is refused offends after the tokens `read`. -/
theorem RefusedAt.offends {read after : List Token} (h : RefusedAt last e read (t :: after)) :
    Offends read t :=
  .of_refuses h.viable last fun us => (h.refuses t rfl last us).imp' _ fun _ he => he

/-- No other token than the one ahead offends: if `t` does after `before`, then `before` is what was
read. -/
theorem RefusedAt.eq_of_offends {read ahead before after : List Token}
    (h : RefusedAt last e read ahead) (hsplit : read ++ ahead = before ++ t :: after)
    (ht : Offends before t) : before = read ∧ ahead = t :: after := by
  obtain ⟨extra, rfl, hahead⟩ | ⟨extra, rfl, hafter⟩ := List.append_eq_append_iff.mp hsplit
  · cases extra with
    | nil => exact ⟨List.append_nil read, hahead⟩
    | cons u extra =>
      -- The refused token stands before the offending one, where everything is viable.
      subst hahead
      have hprefix : read ++ [u] <+: read ++ u :: extra := ⟨extra, by simp⟩
      exact absurd (ht.viable _ hprefix) h.offends.not_viable
  · cases extra with
    | nil => exact ⟨(List.append_nil before).symm, hafter.symm⟩
    | cons u extra =>
      -- The offending token was read, and what was read is viable.
      obtain ⟨rfl, -⟩ := List.cons.inj hafter
      have hviable : Viable (before ++ [t] ++ extra) := by simpa using h.viable
      exact absurd hviable.of_append ht.not_viable

/-- Viable tokens `ts` are viable behind a program `before`, if there is no end marker in it. -/
theorem Accepted.viable_append {before : List Token} (h : Accepted before)
    (hend : ∀ t ∈ before, t.kind ≠ .endOfInput) (hts : Viable ts) : Viable (before ++ ts) := by
  obtain ⟨cs, hcs⟩ := h.statements_append hend
  obtain ⟨us, ds, hds⟩ := hts
  refine ⟨us, (accepted_iff (lastPosition (ts ++ us))).mpr ⟨cs ++ ds, ?_⟩⟩
  rw [List.append_assoc, hcs, ← ofTokens, hds]
  rfl

/-- What is refused after a program `before` is refused for the same problem without it. -/
theorem Accepted.refuses {before : List Token} (h : Accepted before)
    (hend : ∀ t ∈ before, t.kind ≠ .endOfInput) {problem problem' : SyntaxProblem}
    {place place' : Position} (hts : statements last ts = .error ⟨problem, place⟩)
    (hbefore : statements last (before ++ ts) = .error ⟨problem', place'⟩) :
    problem = problem' := by
  obtain ⟨cs, hcs⟩ := h.statements_append hend
  rw [hcs, hts] at hbefore
  exact congrArg SyntaxError.problem (Except.error.inj hbefore)

/-- The words that name no command and no shape are the keywords `t` that are refused where such a
name is expected (`NameExpected`). -/
theorem RefusedAt.isUnknownWord_iff {read after : List Token}
    (h : RefusedAt last e read (t :: after)) (hend : ∀ u ∈ read, u.kind ≠ .endOfInput) :
    e.problem.isUnknownWord ↔ t.kind = .keyword ∧ NameExpected read := by
  constructor
  · intro hunknown
    obtain ⟨hname, u, hu, hkind⟩ := h.name hunknown
    obtain rfl : t = u := by simpa using hu
    exact ⟨hkind, hname⟩
  · -- A word that names a command or a shape would be viable, so the word names none.
    rintro ⟨ht, hread | ⟨program, draw, rfl, hprogram, hdraw⟩⟩
    · obtain ⟨place, hplace⟩ := h.refuses t rfl last []
      obtain hdraw | ⟨p, hp, haction⟩ | haction := action_cases ht
      · exact absurd (hread.viable_append hend (viable_draw hdraw)) h.offends.not_viable
      · obtain ⟨us, a, hus⟩ := hp.predictive.completes
        have hviable : Viable ([t] ++ us) := viable_of_takes [] ht haction hus
        exact absurd (hread.viable_append hend hviable.of_append) h.offends.not_viable
      · rw [← hread.refuses hend (statements_of_refusal ht (haction last [])) hplace]
        rfl
    · -- The name of a shape is expected, behind a program and the word `draw`.
      have hend' : ∀ u ∈ program, u.kind ≠ .endOfInput := fun u hu => hend u (by simp [hu])
      obtain ⟨place, hplace⟩ := h.refuses t rfl last []
      have hnot := h.offends.not_viable
      rw [List.append_assoc, List.singleton_append] at hplace hnot
      obtain ⟨p, hp, hshape⟩ | hshape := draw_cases ht
      · obtain ⟨us, a, hus⟩ := hp.predictive.completes
        have hviable : Viable ([draw, t] ++ us) :=
          viable_of_takes [t] hdraw.1
            (fun last us => (action_draw hdraw last _).trans (hshape last us)) hus
        exact absurd (hprogram.viable_append hend' hviable.of_append) hnot
      · have hrefused := statements_of_refusal hdraw.1
          ((action_draw hdraw last [t]).trans (hshape last []))
        rw [← hprogram.refuses hend' hrefused hplace]
        rfl

/-! ## The place that is reported -/

/-- There is no zero byte in the text of a `place`, which would end the message. -/
theorem ne_zero_of_mem_text {place : Position} {b : Byte} (h : b ∈ place.text) : b ≠ 0 := by
  simp only [Position.text, List.mem_append] at h
  obtain ((h | h) | h) | h := h
  · rintro rfl
    exact absurd h (by decide)
  · exact Byte.ne_zero_of_isDigit (Text.isDigit_of_mem_ofNat h)
  · rintro rfl
    exact absurd h (by decide)
  · exact Byte.ne_zero_of_isDigit (Text.isDigit_of_mem_ofNat h)

/-- The message of a refusal `e` names its place before its problem, which ends at its first zero
byte. -/
theorem message_eq (e : SyntaxError) :
    e.message = ascii "Parse error at " ++ e.position.text ++ ascii ": " ++
      Text.beforeNul e.problem.text := by
  rw [SyntaxError.message, Text.beforeNul_append]
  intro b hb
  simp only [List.mem_append] at hb
  obtain (hb | hb) | hb := hb
  · rintro rfl
    exact absurd hb (by decide)
  · exact ne_zero_of_mem_text hb
  · rintro rfl
    exact absurd hb (by decide)

/-- Where a refusal at the token `t` ahead is reported: at `t`, or after it if a name is expected
there and `t` names nothing. -/
theorem RefusedAt.position_eq {read after : List Token}
    (h : RefusedAt (lastPosition (read ++ t :: after)) e read (t :: after))
    (hend : ∀ u ∈ read, u.kind ≠ .endOfInput) :
    (¬ (t.kind = .keyword ∧ NameExpected read) → e.position = t.position) ∧
      (t.kind = .keyword ∧ NameExpected read →
        e.position = (after.head?.getD t).position) := by
  rw [← h.isUnknownWord_iff hend]
  constructor
  · intro hknown
    rw [h.position, if_neg hknown]
    rfl
  · intro hunknown
    -- An unknown word has been passed already, so the place is that of the token behind it.
    rw [h.position, if_pos hunknown, List.tail_cons, placeOf]
    cases after with
    | nil => simp [lastPosition]
    | cons u after => rfl

/-- Where a program is refused. Either a token offends or the program ends too early. A token that
offends is the one that is reported, unless it is a word where a command or a shape is to be named
and another token follows at another place: then that token is reported. A program that ends too
early is reported at its last token. The message names the place that is reported. -/
theorem position_of_refusal {ts : List Token} {e : SyntaxError}
    (hend : ∀ t ∈ ts, t.kind ≠ .endOfInput) (h : ofTokens ts = .error e) :
    (Viable ts ∨ ∃ before t after, ts = before ++ t :: after ∧ Offends before t) ∧
    (∀ before t after, ts = before ++ t :: after → Offends before t →
      (e.position = t.position ↔
        ¬ (t.kind = .keyword ∧ NameExpected before) ∨
          ∀ u ∈ after.head?, u.position = t.position) ∧
      (t.kind = .keyword ∧ NameExpected before → ∀ u ∈ after.head?, e.position = u.position)) ∧
    (Viable ts → ∃ t, ts.getLast? = some t ∧ e.position = t.position) ∧
    ascii "Parse error at line " ++ Text.ofNat e.position.line.toNat ++ ascii ", column " ++
      Text.ofNat e.position.column.toNat ++ ascii ": " <+: e.message := by
  obtain ⟨read, ahead, rfl, hrefused⟩ := refusedAt_of_statements h
  refine ⟨?_, ?_, ?_, ?_⟩
  · cases ahead with
    | nil => exact .inl (by simpa using hrefused.viable)
    | cons t after => exact .inr ⟨read, t, after, rfl, hrefused.offends⟩
  · -- The offending token is the one ahead, so what is known of the refusal is known of it.
    intro before t after hsplit ht
    obtain ⟨rfl, rfl⟩ := hrefused.eq_of_offends hsplit ht
    obtain ⟨hknown, hunknown⟩ := hrefused.position_eq fun u hu => hend u (by simp [hu])
    refine ⟨⟨?_, ?_⟩, ?_⟩
    · intro hplace
      by_cases hname : t.kind = .keyword ∧ NameExpected before
      · refine .inr fun u hu => ?_
        rw [← hplace, hunknown hname, hu, Option.getD_some]
      · exact .inl hname
    · rintro (hname | hsame)
      · exact hknown hname
      · by_cases hname : t.kind = .keyword ∧ NameExpected before
        · rw [hunknown hname]
          cases after with
          | nil => rfl
          | cons u after => exact hsame u rfl
        · exact hknown hname
    · intro hname u hu
      rw [hunknown hname, hu, Option.getD_some]
  · intro hviable
    cases ahead with
    | cons t after =>
      rw [← List.singleton_append, ← List.append_assoc] at hviable
      exact absurd hviable.of_append hrefused.offends.not_viable
    | nil =>
      -- Nothing was left, so the place is that of the last token; no refusal is of no tokens.
      rw [List.append_nil] at h hrefused ⊢
      have hplace : e.position = lastPosition read := by
        rw [hrefused.position, List.tail_nil, ite_self]
        rfl
      cases hlast : read.getLast? with
      | none =>
        obtain rfl := List.getLast?_eq_none_iff.mp hlast
        simp [ofTokens] at h
      | some t =>
        refine ⟨t, rfl, ?_⟩
        rw [hplace, lastPosition, hlast]
        rfl
  · rw [message_eq]
    refine ⟨Text.beforeNul e.problem.text, ?_⟩
    simp only [Position.text, List.append_assoc]
    rfl

/-- In `clear draw triangle 1` the token that offends is `triangle`, and `1` is reported. -/
theorem position_of_unknown_shape :
    let clear : Token := ⟨.keyword, ascii "clear", ⟨1, 0⟩⟩
    let draw : Token := ⟨.keyword, ascii "draw", ⟨2, 0⟩⟩
    let triangle : Token := ⟨.keyword, ascii "triangle", ⟨2, 5⟩⟩
    let one : Token := ⟨.number, ascii "1", ⟨2, 14⟩⟩
    (∀ t ∈ [clear, draw, triangle, one], t.kind ≠ .endOfInput) ∧
      ∃ e, ofTokens [clear, draw, triangle, one] = .error e ∧
        Offends [clear, draw] triangle ∧ e.position = one.position ∧
        ascii "Parse error at line 2, column 14: " <+: e.message := by
  intro clear draw triangle one
  have hend : ∀ t ∈ [clear, draw, triangle, one], t.kind ≠ .endOfInput := by decide
  have hclear : ∀ last us, statements last (clear :: us) =
      (statements last us).map (⟨.clear, clear.position⟩ :: ·) :=
    fun last us => statements_of_action rfl rfl
  -- draw :: :: Whatever follows, `triangle` is refused, at the place of what follows.
  have hrefuses : ∀ last us, statements last (clear :: draw :: triangle :: us) =
      .error ⟨.unknownShape triangle.text, placeOf last us⟩ := by
    intro last us
    rw [hclear, statements_of_refusal (e := ⟨.unknownShape triangle.text, placeOf last us⟩) rfl rfl]
    rfl
  have haccepted : Accepted [clear] :=
    (accepted_iff .start).mpr ⟨[⟨.clear, clear.position⟩], by rw [hclear, statements_nil]; rfl⟩
  have hoffends : Offends [clear, draw] triangle :=
    .of_refuses (haccepted.viable_append (by decide) (viable_draw ⟨rfl, rfl⟩)) .start
      fun us => ⟨_, hrefuses .start us⟩
  have hrefused := hrefuses one.position [one]
  obtain ⟨-, hoffender, -, hmessage⟩ := position_of_refusal hend hrefused
  have hplace : ascii "Parse error at line " ++ Text.ofNat 2 ++ ascii ", column " ++
      Text.ofNat 14 ++ ascii ": " = ascii "Parse error at line 2, column 14: " := by decide
  have hname : NameExpected [clear, draw] := .inr ⟨[clear], draw, rfl, haccepted, rfl, rfl⟩
  exact ⟨hend, _, hrefused, hoffends,
    (hoffender [clear, draw] triangle [one] rfl hoffends).2 ⟨rfl, hname⟩ one rfl, hplace ▸ hmessage⟩

/-- In `fill on` the token that offends is `fill`, and yet `on` is reported. -/
theorem refusal_beside_offender :
    let fill : Token := ⟨.keyword, ascii "fill", ⟨1, 0⟩⟩
    let on : Token := ⟨.keyword, ascii "on", ⟨1, 5⟩⟩
    Offends [] fill ∧
      ∃ e, ofTokens [fill, on] = .error e ∧ e.position = on.position ∧
        e.position ≠ fill.position := by
  intro fill on
  have hrefuses : ∀ last us, statements last (fill :: us) =
      .error ⟨.unknownCommand fill.text, placeOf last us⟩ :=
    fun last us => statements_of_refusal rfl rfl
  refine ⟨.of_refuses ⟨[], accepted_nil⟩ .start fun us => ⟨_, hrefuses .start us⟩, _,
    hrefuses _ [on], rfl, ?_⟩
  decide

end Program

end Sketch
