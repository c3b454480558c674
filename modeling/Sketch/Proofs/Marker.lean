import Sketch.Proofs.Refusal
import Sketch.Proofs.Relocation

/-!
# The end marker is the end of the tokens

A program ends where its tokens do, or at an end marker, whatever follows the marker.
`Program.end_marker_is_optional` shows that it makes no difference which. The same tokens are
accepted, with the same commands, and the same tokens are refused, for the same problem. Only the
place may be another: where no token is left to report, it is that of the last token, and with a
marker it is that of the marker (`Exhausted`).

Reading tokens up to a marker is reading them alone, with the place of the marker to report once
none is left (`Program.statements_append_marker`). For the operands of statements this is kept when
readings are put one after another (`Reading.EndsAtMarker`). So two readings of the same tokens are
left to compare, with two places to report. They refuse the tokens for the same problem
(`Program.statements_problem`) and at the same token (`Program.RefusedAt.unique`).
-/

namespace Sketch

namespace Program

namespace Reading

variable {α β : Type} {p : Reading α} {q : α → Reading β}

/-- What comes of a reading, `x`, with `more` tokens behind those that it leaves. -/
def followedBy (more : List Token) (x : Except SyntaxError (α × List Token)) :
    Except SyntaxError (α × List Token) :=
  x.map fun r => (r.1, r.2 ++ more)

/-- The reading `p` takes an end marker for the end of the tokens: it leaves the `marker`, and
reports its place for what is missing. -/
def EndsAtMarker (p : Reading α) : Prop :=
  ∀ {ts : List Token} {marker : Token}, (∀ t ∈ ts, t.kind ≠ .endOfInput) →
    marker.kind = .endOfInput → ∀ last rest,
      p last (ts ++ marker :: rest) = followedBy (marker :: rest) (p marker.position ts)

/-- A value `a` that needs no tokens needs no marker. -/
theorem endsAtMarker_pure (a : α) : EndsAtMarker fun _ ts => .ok (a, ts) :=
  fun _ _ _ _ => rfl

/-- A refusal for a `problem` is at the marker if no token is in front of it. -/
theorem endsAtMarker_refuse (problem : SyntaxProblem) :
    EndsAtMarker fun last ts => (refuse last ts problem : Except SyntaxError (α × List Token)) := by
  intro ts marker _ _ last rest
  cases ts <;> rfl

/-- A check of one token by `one` takes a marker for the end if it finds the token `missing` there
(`hcheck`). -/
theorem endsAtMarker_one {missing : SyntaxProblem} {check : Token → Except SyntaxProblem α}
    (hcheck : ∀ marker : Token, marker.kind = .endOfInput → check marker = .error missing) :
    (one missing check).EndsAtMarker := by
  intro ts marker _ hmarker last rest
  cases ts with
  | nil =>
    simp only [List.nil_append, one, hcheck marker hmarker]
    rfl
  | cons t ts =>
    rw [List.cons_append, one, one]
    cases check t <;> rfl

/-- One reading after another, `p.bind q`, ends at a marker if both do: the tokens that `q a` is
given are among those of `p`, so there is no marker among them. -/
theorem EndsAtMarker.bind (hp : p.EndsAtMarker) (hpredictive : p.Predictive)
    (hq : ∀ a, (q a).EndsAtMarker) : (p.bind q).EndsAtMarker := by
  intro ts marker hend hmarker last rest
  rw [Reading.bind, Reading.bind, hp hend hmarker]
  cases hts : p marker.position ts with
  | error e => rfl
  | ok r =>
    obtain ⟨a, after⟩ := r
    obtain ⟨head, rfl, -⟩ := hpredictive.takes hts
    exact hq a (fun t ht => hend t (List.mem_append_right head ht)) hmarker last rest

end Reading

open Sketch.Program.Reading

/-- Operands that are missing at a marker are missing at the end: every check finds the marker to be
none of its tokens. -/
theorem Operands.endsAtMarker {α : Type} {p : Reading α} (h : Operands p) : p.EndsAtMarker := by
  induction h with
  | none a => exact endsAtMarker_pure a
  | number statement =>
    -- Every operand refuses the marker with the problem that it reports of no token at all.
    refine endsAtMarker_one fun marker hmarker => ?_
    simp [numberOf, hmarker]
  | colorKeyword =>
    refine endsAtMarker_one fun marker hmarker => ?_
    simp [colorKeywordOf, hmarker]
  | color =>
    refine endsAtMarker_one fun marker hmarker => ?_
    simp [colorOf, hmarker]
  | penAction =>
    refine endsAtMarker_one fun marker hmarker => ?_
    simp [penActionOf, hmarker]
  | bind hp _ ihp ihq => exact ihp.bind hp.predictive ihq

/-- A shape that `draw` misses at a marker is missing at the end. -/
theorem endsAtMarker_draw : EndsAtMarker draw := by
  intro ts marker hend hmarker last rest
  cases ts with
  | nil =>
    -- rest) = :: At the end of its tokens `draw` sees the marker, and takes it for a missing shape
    -- too.
    have hdraw : draw last (marker :: rest) = refuse last (marker :: rest) .shapeExpected := by
      simp [draw, hmarker]
    rw [List.nil_append, hdraw]
    rfl
  | cons t ts =>
    have hts : ∀ u ∈ ts, u.kind ≠ .endOfInput := fun u hu => hend u (List.mem_cons_of_mem t hu)
    rw [List.cons_append]
    by_cases hkind : t.kind = .keyword
    · obtain ⟨p, hp, hdraw⟩ | hdraw := draw_cases hkind
      · rw [hdraw, hdraw]
        exact hp.endsAtMarker hts hmarker last rest
      · rw [hdraw, hdraw]
        exact endsAtMarker_refuse _ hts hmarker last rest
    · simp only [draw, if_pos hkind]
      rfl

/-- A statement with the keyword `t` that is not complete at a marker is not complete at the end. -/
theorem endsAtMarker_action {t : Token} (ht : t.kind = .keyword) :
    EndsAtMarker fun last ts => action last t.text ts := by
  intro ts marker hend hmarker last rest
  obtain hdraw | ⟨p, hp, haction⟩ | haction := action_cases ht
  · simp only [action_draw hdraw]
    exact endsAtMarker_draw hend hmarker last rest
  · simp only [haction]
    exact hp.endsAtMarker hend hmarker last rest
  · simp only [haction]
    exact endsAtMarker_refuse _ hend hmarker last rest

/-- The `statements` of `ts` are read up to a `marker` as they are read to the end, with the place
of the marker to report once no token is left. -/
theorem statements_append_marker {ts : List Token} {marker : Token}
    (hend : ∀ t ∈ ts, t.kind ≠ .endOfInput) (hmarker : marker.kind = .endOfInput)
    (last : Position) (rest : List Token) :
    statements last (ts ++ marker :: rest) = statements marker.position ts := by
  induction ts using statements.induct marker.position with
  | case1 => rw [List.nil_append, statements_of_endOfInput hmarker, statements_nil]
  | case2 t ts ht => exact absurd ht (hend t List.mem_cons_self)
  | case3 t ts ht hkind =>
    rw [List.cons_append, statements_of_kind_ne ht hkind, statements_of_kind_ne ht hkind]
    rfl
  | case4 t ts ht hkind e he =>
    have hkeyword := not_not.mp hkind
    have hts : ∀ u ∈ ts, u.kind ≠ .endOfInput := fun u hu => hend u (List.mem_cons_of_mem t hu)
    -- A refused statement may have run out of tokens, and then it looks at the marker.
    have haction := endsAtMarker_action hkeyword hts hmarker last rest
    simp only [he] at haction
    rw [List.cons_append, statements_of_refusal hkeyword haction, statements_of_refusal hkeyword he]
  | case5 t ts ht hkind a after ha hlt ih =>
    have hkeyword := not_not.mp hkind
    have hts : ∀ u ∈ ts, u.kind ≠ .endOfInput := fun u hu => hend u (List.mem_cons_of_mem t hu)
    have haction := endsAtMarker_action hkeyword hts hmarker last rest
    simp only [ha] at haction
    obtain ⟨operands, rfl, -, -⟩ := statement_of_action hkeyword ha
    rw [List.cons_append, statements_of_action hkeyword haction, statements_of_action hkeyword ha,
      ih fun u hu => hts u (List.mem_append_right operands hu)]

/-! ## Two places to report -/

variable {last last' : Position} {ts read ahead : List Token} {e e' : SyntaxError}

/-- Tokens are refused by `statements` for one problem, whatever place, `last` or `last'`, is to be
reported once none is left. -/
theorem statements_problem (h : statements last ts = .error e) :
    ∃ place, statements last' ts = .error ⟨e.problem, place⟩ := by
  -- Two readings of the tokens are the same once all places are made one.
  have hsame := (statements_relocate (fun _ => .start) last ts).symm.trans
    (statements_relocate (fun _ => .start) last' ts)
  rw [h] at hsame
  cases h' : statements last' ts with
  | ok cs =>
    rw [h'] at hsame
    cases hsame
  | error e' =>
    rw [h'] at hsame
    simp only [Except.map, Except.mapError, Except.error.injEq] at hsame
    obtain ⟨hproblem, -⟩ := SyntaxError.mk.inj hsame
    rw [hproblem]
    exact ⟨e'.position, rfl⟩

/-- Tokens are refused at one place among them, whatever place is to be reported once none is left:
`read'` is `read` and `ahead'` is `ahead`. -/
theorem RefusedAt.unique {read' ahead' : List Token} (h : RefusedAt last e read ahead)
    (h' : RefusedAt last' e' read' ahead') (hsplit : read ++ ahead = read' ++ ahead') :
    read' = read ∧ ahead' = ahead := by
  cases ahead' with
  | cons t after =>
    obtain ⟨hread, hahead⟩ := h.eq_of_offends hsplit h'.offends
    exact ⟨hread, hahead.symm⟩
  | nil =>
    cases ahead with
    | nil => simpa using hsplit.symm
    | cons t after =>
      obtain ⟨-, hahead⟩ := h'.eq_of_offends hsplit.symm h.offends
      cases hahead

/-- No token is left where the tokens are refused: they can be continued to a program, or the last
of them offends and is a word where a command or a shape is to be named, which is taken up before it
is refused. -/
inductive Exhausted (ts : List Token) : Prop where
  | tooEarly : Viable ts → Exhausted ts
  | lastWord {before : List Token} {word : Token} : ts = before ++ [word] → Offends before word →
    word.kind = .keyword → NameExpected before → Exhausted ts

/-- No token is left (`Exhausted`) exactly if none is there to be reported, ahead of the refusal or
behind an unknown word. -/
theorem RefusedAt.exhausted_iff (h : RefusedAt last e read ahead)
    (hend : ∀ t ∈ read, t.kind ≠ .endOfInput) :
    Exhausted (read ++ ahead) ↔
      (if e.problem.isUnknownWord then ahead.tail else ahead) = [] := by
  cases ahead with
  | nil =>
    rw [List.append_nil, List.tail_nil, ite_self]
    exact ⟨fun _ => rfl, fun _ => .tooEarly h.viable⟩
  | cons t after =>
    constructor
    · -- What could still become a program cannot hold the token `t`, where the refusal is.
      rintro (hviable | ⟨hsplit, hword, hkind, hname⟩)
      · rw [← List.singleton_append, ← List.append_assoc] at hviable
        exact absurd hviable.of_append h.offends.not_viable
      · obtain ⟨rfl, hahead⟩ := h.eq_of_offends hsplit hword
        obtain ⟨rfl, rfl⟩ := List.cons.inj hahead
        rw [if_pos ((h.isUnknownWord_iff hend).mpr ⟨hkind, hname⟩)]
        rfl
    · intro hnone
      split at hnone
      · obtain rfl : after = [] := hnone
        obtain ⟨hkind, hname⟩ := (h.isUnknownWord_iff hend).mp ‹_›
        exact .lastWord rfl h.offends hkind hname
      · cases hnone

/-- An end marker behind the tokens of a program makes no difference to what is accepted and to the
commands, and neither does what follows it. Tokens that are refused are refused for the same
problem, which the message tells behind the place. That place is the same token if one is left to be
reported. If none is, it is the last token, and with a marker it is the marker. -/
theorem end_marker_is_optional {marker : Token} (hend : ∀ t ∈ ts, t.kind ≠ .endOfInput)
    (hmarker : marker.kind = .endOfInput) (rest : List Token) :
    (∀ cs, ofTokens (ts ++ marker :: rest) = .ok cs ↔ ofTokens ts = .ok cs) ∧
    ∀ e, ofTokens ts = .error e → ∃ e', ofTokens (ts ++ marker :: rest) = .error e' ∧
      e'.problem = e.problem ∧
      (∃ detail,
        e.message = ascii "Parse error at " ++ e.position.text ++ ascii ": " ++ detail ∧
        e'.message = ascii "Parse error at " ++ e'.position.text ++ ascii ": " ++ detail) ∧
      (¬ Exhausted ts → ∃ t ∈ ts, e.position = t.position ∧ e'.position = t.position) ∧
      (Exhausted ts → (∃ t, ts.getLast? = some t ∧ e.position = t.position) ∧
        e'.position = marker.position) := by
  have hmarked : ofTokens (ts ++ marker :: rest) = statements marker.position ts :=
    statements_append_marker hend hmarker _ rest
  rw [hmarked]
  refine ⟨fun cs => ⟨statements_ok_of_ok, statements_ok_of_ok⟩, fun e h => ?_⟩
  obtain ⟨place, h'⟩ : ∃ place, statements marker.position ts = .error ⟨e.problem, place⟩ :=
    statements_problem h
  obtain ⟨read, ahead, rfl, hrefused⟩ := refusedAt_of_statements h
  obtain ⟨read', ahead', hsplit, hrefused'⟩ := refusedAt_of_statements h'
  -- Both refusals are at one token, with the same problem, so they can differ in the reported place
  -- only.
  obtain ⟨rfl, rfl⟩ := hrefused.unique hrefused' hsplit
  have hexhausted := hrefused.exhausted_iff fun t ht => hend t (List.mem_append_left _ ht)
  have hplace := hrefused.position
  have hplace' : place = _ := hrefused'.position
  -- A token that is reported is one of the program.
  have hleft : ∀ t ∈ if e.problem.isUnknownWord then ahead'.tail else ahead',
      t ∈ read' ++ ahead' := by
    intro t ht
    split at ht
    · exact List.mem_append_right _ (List.mem_of_mem_tail ht)
    · exact List.mem_append_right _ ht
  refine ⟨_, h', rfl, ⟨_, message_eq _, message_eq _⟩, ?_, ?_⟩
  · intro hnot
    -- A token is left, and both places are its place.
    obtain ⟨t, after, hcons⟩ := List.exists_cons_of_ne_nil (mt hexhausted.mpr hnot)
    rw [hcons] at hplace hleft
    rw [hcons] at hplace'
    exact ⟨t, hleft t List.mem_cons_self, hplace, hplace'⟩
  · intro hnone
    rw [hexhausted.mp hnone] at hplace
    rw [hexhausted.mp hnone] at hplace'
    refine ⟨?_, hplace'⟩
    -- No refusal is of no tokens, so there is a last one.
    cases hlast : (read' ++ ahead').getLast? with
    | none =>
      rw [List.getLast?_eq_none_iff.mp hlast, ofTokens, statements_nil] at h
      cases h
    | some t =>
      refine ⟨t, rfl, ?_⟩
      rw [hplace, lastPosition, hlast]
      rfl

/-- In `draw triangle 1` the number is reported, with a marker and without. In `move 1` the number
is the last token and is reported, unless there is a marker. -/
theorem end_marker_of_refusals :
    let marker : Token := ⟨.endOfInput, [], ⟨2, 0⟩⟩
    let draw : Token := ⟨.keyword, ascii "draw", ⟨1, 0⟩⟩
    let triangle : Token := ⟨.keyword, ascii "triangle", ⟨1, 5⟩⟩
    let move : Token := ⟨.keyword, ascii "move", ⟨1, 9⟩⟩
    let one : Token := ⟨.number, ascii "1", ⟨1, 14⟩⟩
    marker.kind = .endOfInput ∧
    ((∀ t ∈ [draw, triangle, one], t.kind ≠ .endOfInput) ∧ ¬ Exhausted [draw, triangle, one] ∧
      ofTokens [draw, triangle, one] = .error ⟨.unknownShape (ascii "triangle"), ⟨1, 14⟩⟩ ∧
      ∃ e, ofTokens [draw, triangle, one, marker, one] = .error e ∧
        e.problem = .unknownShape (ascii "triangle") ∧ e.position = one.position) ∧
    (∀ t ∈ [move, one], t.kind ≠ .endOfInput) ∧ Exhausted [move, one] ∧
      ofTokens [move, one] = .error ⟨.numberExpected .move, ⟨1, 14⟩⟩ ∧
      ∃ e, ofTokens [move, one, marker, one] = .error e ∧
        e.problem = .numberExpected .move ∧ e.position = marker.position := by
  intro marker draw triangle move one
  have hshape : ∀ t ∈ [draw, triangle, one], t.kind ≠ .endOfInput := by decide
  have hpoint : ∀ t ∈ [move, one], t.kind ≠ .endOfInput := by decide
  have htriangle : ofTokens [draw, triangle, one] =
      .error ⟨.unknownShape (ascii "triangle"), ⟨1, 14⟩⟩ := by decide +kernel
  have hmove : ofTokens [move, one] = .error ⟨.numberExpected .move, ⟨1, 14⟩⟩ := by decide +kernel
  have hoffends : Offends [draw] triangle :=
    .of_refuses (viable_draw ⟨rfl, rfl⟩) .start fun us => ⟨_, statements_of_refusal rfl rfl⟩
  have hleft : ¬ Exhausted [draw, triangle, one] := by
    -- `triangle` offends and stands before the last token, so it is neither still to come nor the
    -- last word.
    rintro (hviable | ⟨hsplit, -, hkind, -⟩)
    · have hmore : Viable ([draw, triangle] ++ [one]) := hviable
      exact hoffends.not_viable hmore.of_append
    · have hlast : [draw, triangle] ++ [one] = _ := hsplit
      obtain ⟨-, hword⟩ := List.append_inj' hlast rfl
      rw [← List.singleton_inj.mp hword] at hkind
      cases hkind
  have hcomplete : ofTokens [move, one, one] =
      .ok [⟨.move (.ofNumeral (ascii "1")) (.ofNumeral (ascii "1")), ⟨1, 9⟩⟩] := by decide +kernel
  have hnone : Exhausted [move, one] := .tooEarly ⟨[one], _, hcomplete⟩
  obtain ⟨e, he, hproblem, -, hat, -⟩ :=
    (end_marker_is_optional hshape (rfl : marker.kind = .endOfInput) [one]).2 _ htriangle
  obtain ⟨e', he', hproblem', -, -, hat'⟩ :=
    (end_marker_is_optional hpoint (rfl : marker.kind = .endOfInput) [one]).2 _ hmove
  obtain ⟨t, -, ht, heq⟩ := hat hleft
  exact ⟨rfl, ⟨hshape, hleft, htriangle, e, he, hproblem, heq.trans ht.symm⟩, hpoint, hnone, hmove,
    e', he', hproblem', (hat' hnone).2⟩

end Program

end Sketch
