import Sketch.Proofs.Lines
import Sketch.Proofs.Refusal

/-!
# What is wrong with a program is settled early

`Program.diagnosis_by_what_was_read` says what decides how a program is refused. If a token offends,
the tokens up to it do: whatever follows, the program is refused, and the message says the same
behind the place. If none does and the program merely ends too early, its last statement does: the
program is one that is accepted and the start of a statement behind it (`Unfinished`), and it is
refused as that start alone is.

The first part is what `RefusedAt` hands on from statement to statement. For the second part, the
statements that are read are taken off one by one, and the first that is refused has all its tokens
taken up by some continuation (`Program.exists_unfinished`).
-/

namespace Sketch

namespace Program

variable {last : Position} {ts : List Token} {e : SyntaxError}

/-- The tokens `ts` are some that a statement goes on from: there are some, and more are `missing`.
-/
structure Unfinished (ts : List Token) : Prop where
  ne_nil : ts ≠ []
  goes_on : ∃ missing c, missing ≠ [] ∧ Statement (ts ++ missing) c

/-- What is wrong with a token `t` that offends after `before` does not depend on what follows it.
-/
theorem Offends.exists_problem {before : List Token} {t : Token} (h : Offends before t) :
    ∃ problem, ∀ last us, ∃ place,
      statements last (before ++ t :: us) = .error ⟨problem, place⟩ := by
  cases halone : statements .start (before ++ [t]) with
  | ok cs =>
    have haccepted : Accepted (before ++ [t]) := (accepted_iff .start).mpr ⟨cs, halone⟩
    exact absurd ⟨[], by rwa [List.append_nil]⟩ h.not_viable
  | error e =>
    obtain ⟨read, ahead, hsplit, hrefused⟩ := refusedAt_of_statements halone
    obtain ⟨rfl, rfl⟩ := hrefused.eq_of_offends hsplit.symm h
    exact ⟨e.problem, hrefused.refuses t rfl⟩

/-- A statement with the keyword `t` that is refused (`h`) and can be continued (`hviable`) is
unfinished. -/
theorem unfinished_of_action {t : Token} {rest : List Token} (ht : t.kind = .keyword)
    (h : action last t.text rest = .error e) (hviable : Viable (t :: rest)) :
    Unfinished (t :: rest) := by
  obtain ⟨us, cs, hcs⟩ := hviable
  rw [ofTokens, List.cons_append] at hcs
  cases haction : action (lastPosition (t :: (rest ++ us))) t.text (rest ++ us) with
  | error e' =>
    rw [statements_of_refusal ht haction] at hcs
    cases hcs
  | ok r =>
    obtain ⟨a, after⟩ := r
    obtain ⟨operands, hsplit, hops, hstatement⟩ := statement_of_action ht haction
    -- The operands would be read if they were all there.
    have hmore : ∀ extra, rest ≠ operands ++ extra := by
      rintro extra rfl
      rw [action_of_statement hstatement hops] at h
      cases h
    -- The operands go beyond the tokens that are there, or these tokens would suffice.
    obtain ⟨missing, rfl, -⟩ | ⟨extra, hrest, -⟩ := List.append_eq_append_iff.mp hsplit
    · refine ⟨List.cons_ne_nil t rest, missing, _, ?_, hstatement⟩
      rintro rfl
      exact hmore [] (by simp)
    · exact absurd hrest (hmore extra)

/-- Tokens that are refused and can be continued are a `program` and an unfinished statement, the
`piece`. -/
theorem exists_unfinished (h : statements last ts = .error e) (hviable : Viable ts) :
    ∃ program piece, ts = program ++ piece ∧ (∀ t ∈ program, t.kind ≠ .endOfInput) ∧
      Accepted program ∧ Unfinished piece := by
  induction ts using statements.induct last with
  | case1 => simp at h
  | case2 t rest hend => simp [statements_of_endOfInput hend] at h
  | case3 t rest hend hkind =>
    obtain ⟨us, cs, hcs⟩ := hviable
    rw [ofTokens, List.cons_append, statements_of_kind_ne hend hkind] at hcs
    exact absurd hcs (refuse_ne_ok _ _ _ _)
  | case4 t rest hend hkind e' he =>
    exact ⟨[], t :: rest, rfl, by simp, accepted_nil,
      unfinished_of_action (not_not.mp hkind) he hviable⟩
  | case5 t rest hend hkind a after ha hlt ih =>
    -- The statement that is read is put in front of what is found after it.
    obtain ⟨operands, rfl, hops, hstatement⟩ := statement_of_action (not_not.mp hkind) ha
    have hpiece : ∀ u ∈ t :: operands, u.kind ≠ .endOfInput :=
      List.forall_mem_cons.mpr ⟨hend, hops⟩
    have hread := statements_of_statement hstatement hpiece
    rw [← List.cons_append] at h hviable
    rw [hread, map_eq_error_iff] at h
    obtain ⟨program, piece, rfl, hprogram, haccepted, hunfinished⟩ :=
      ih h ((viable_append_iff hread).mp hviable)
    exact ⟨t :: operands ++ program, piece, by simp,
      List.forall_mem_append.mpr ⟨hpiece, hprogram⟩, (accepted_append_iff hread).mpr haccepted,
      hunfinished⟩

/-- What was read of a program that is refused settles what is wrong. After the first token with
which the tokens cannot be continued to a program, no further token changes the refusal or what its
message says behind the place. If all of the tokens can be continued to a program and they are none,
they are a program and an unfinished statement, and the refusal is that of the statement. -/
theorem diagnosis_by_what_was_read (ts : List Token) :
    (∀ k, Viable (ts.take k) → ¬ Viable (ts.take (k + 1)) → ∃ problem, ∀ us, ∃ e,
      ofTokens (ts.take (k + 1) ++ us) = .error e ∧ e.problem = problem ∧
        e.message = ascii "Parse error at " ++ e.position.text ++ ascii ": " ++
          Text.beforeNul problem.text) ∧
    (Viable ts → ¬ Accepted ts → ∃ program piece, ts = program ++ piece ∧ Accepted program ∧
      Unfinished piece ∧ ∃ e, ofTokens ts = .error e ∧ ofTokens piece = .error e) := by
  constructor
  · intro k hviable hnot
    -- There is a next token, since all tokens together would be viable and not viable at once.
    have hk : k < ts.length := by
      by_contra hle
      rw [List.take_of_length_le (by omega)] at hviable hnot
      exact hnot hviable
    rw [List.take_succ_eq_append_getElem hk] at hnot ⊢
    have hoffends : Offends (ts.take k) ts[k] := by
      refine ⟨?_, hnot⟩
      rintro start ⟨rest, hstart⟩
      rw [← hstart] at hviable
      exact hviable.of_append
    obtain ⟨problem, hproblem⟩ := hoffends.exists_problem
    refine ⟨problem, fun us => ?_⟩
    obtain ⟨place, hplace⟩ := hproblem (lastPosition (ts.take k ++ [ts[k]] ++ us)) us
    refine ⟨⟨problem, place⟩, ?_, rfl, message_eq _⟩
    rw [ofTokens, ← hplace, List.append_assoc, List.singleton_append]
  · intro hviable hnot
    cases h : ofTokens ts with
    | ok cs => exact absurd ⟨cs, h⟩ hnot
    | error e =>
      obtain ⟨program, piece, rfl, hend, haccepted, hunfinished⟩ := exists_unfinished h hviable
      refine ⟨program, piece, rfl, haccepted, hunfinished, e, rfl, ?_⟩
      obtain ⟨cs, hcs⟩ := haccepted
      rwa [ofTokens_append hend hcs, map_eq_error_iff] at h

/-- In `draw triangle 1` the shape settles the refusal, whatever follows it. In `clear move 1` the
point that lacks a number does. -/
theorem diagnosis_by_shape_and_by_point :
    let draw : Token := ⟨.keyword, ascii "draw", ⟨1, 0⟩⟩
    let triangle : Token := ⟨.keyword, ascii "triangle", ⟨1, 5⟩⟩
    let clear : Token := ⟨.keyword, ascii "clear", ⟨1, 3⟩⟩
    let move : Token := ⟨.keyword, ascii "move", ⟨1, 9⟩⟩
    let one : Token := ⟨.number, ascii "1", ⟨1, 14⟩⟩
    (Viable [draw] ∧ ¬ Viable [draw, triangle] ∧ ∀ us, ∃ e,
      ofTokens ([draw, triangle] ++ us) = .error e ∧
        e.problem = .unknownShape (ascii "triangle")) ∧
    Viable [clear, move, one] ∧ ¬ Accepted [clear, move, one] ∧
      ∃ program piece, [clear, move, one] = program ++ piece ∧ Accepted program ∧
        Unfinished piece ∧ ofTokens piece = .error ⟨.numberExpected .move, ⟨1, 14⟩⟩ := by
  intro draw triangle clear move one
  have hdraw : Viable [draw] := viable_draw ⟨rfl, rfl⟩
  have hoffends : Offends [draw] triangle :=
    .of_refuses hdraw .start fun us => ⟨_, statements_of_refusal rfl rfl⟩
  obtain ⟨problem, hproblem⟩ :=
    (diagnosis_by_what_was_read [draw, triangle, one]).1 1 hdraw hoffends.not_viable
  have hshape : problem = .unknownShape (ascii "triangle") := by
    have halone : ofTokens [draw, triangle] =
        .error ⟨.unknownShape (ascii "triangle"), ⟨1, 5⟩⟩ := by decide +kernel
    obtain ⟨e, he, rfl, -⟩ := hproblem []
    rw [← Except.error.inj (halone.symm.trans he)]
  have hcomplete : ofTokens [clear, move, one, one] =
      .ok [⟨.clear, ⟨1, 3⟩⟩,
        ⟨.move (.ofNumeral (ascii "1")) (.ofNumeral (ascii "1")), ⟨1, 9⟩⟩] := by decide +kernel
  have hviable : Viable [clear, move, one] := ⟨[one], _, hcomplete⟩
  have hpoint : ofTokens [clear, move, one] = .error ⟨.numberExpected .move, ⟨1, 14⟩⟩ := by
    decide +kernel
  have hnot : ¬ Accepted [clear, move, one] := by
    rintro ⟨cs, hcs⟩
    rw [hpoint] at hcs
    cases hcs
  obtain ⟨program, piece, hsplit, haccepted, hunfinished, e, he, hpiece⟩ :=
    (diagnosis_by_what_was_read [clear, move, one]).2 hviable hnot
  rw [hpoint] at he
  obtain rfl := Except.error.inj he
  refine ⟨⟨hdraw, hoffends.not_viable, fun us => ?_⟩, hviable, hnot, program, piece, hsplit,
    haccepted, hunfinished, hpiece⟩
  obtain ⟨e, he, hsame, -⟩ := hproblem us
  exact ⟨e, he, hsame.trans hshape⟩

end Program

end Sketch
