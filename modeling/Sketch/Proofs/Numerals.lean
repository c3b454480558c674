import Sketch.Proofs.Nearest
import Sketch.Proofs.Reading
import Sketch.Proofs.Spans
import Sketch.Proofs.Stages
import Sketch.Proofs.Values

/-!
# Numerals denote the nearest number

The number that is read from a number token is the one nearest to the decimal value of its text, and
a text that is no numeral is refused (`Program.numerals_denote_nearest`). All number tokens of a
program are numerals, so no program is refused for an invalid number.

The first part is `Magnitude.isNearest_nearest` for the quotient that the digits of a numeral make
up. For the second part, a reading refuses a number only for the text of a number token among those
that it was given (`Reading.Blames`), and this is kept when readings are put one after another.
-/

namespace Sketch

/-- A numeral `t` denotes the number without a sign that is nearest to the value of `t`
(`Magnitude.IsNearest`). -/
theorem Binary64.exists_ofNumeral_isNearest (t : Text) :
    ∃ m, ofNumeral t = signed false m ∧ m.IsNearest t.fixedValue := by
  refine ⟨_, rfl, Magnitude.isNearest_nearest (Nat.pow_pos (by decide)) ?_⟩
  have hpow : ((Nat.pow 10 t.fractionPart.length : Nat) : ℚ) = 10 ^ t.fractionPart.length :=
    Nat.cast_pow 10 _
  rw [Text.fixedValue_eq_div, div_mul_eq_mul_div, ← Nat.cast_mul, ← hpow]
  rfl

/-- The texts `t` that `ofLiteral?` refuses are those that are no numeral. -/
theorem Binary64.ofLiteral?_eq_none_iff {t : Text} : ofLiteral? t = none ↔ ¬ IsNumeral t := by
  constructor
  · intro h hnumeral
    rw [ofLiteral?_eq_some_iff.mpr ⟨hnumeral, rfl⟩] at h
    cases h
  · intro h
    by_contra hsome
    obtain ⟨x, hx⟩ := Option.ne_none_iff_exists'.mp hsome
    exact h (ofLiteral?_eq_some_iff.mp hx).1

/-- The `k` zeros in front of a numeral `t` and the `l` zeros behind it make up a numeral with it.
-/
theorem IsNumeral.zeros {t : Text} (h : IsNumeral t) (k l : Nat) :
    IsNumeral (List.replicate k Byte.digitZero ++ t ++ List.replicate l Byte.digitZero) := by
  obtain ⟨hbytes, hpoint, b, hb, hdigit⟩ := h
  have hzero : Byte.digitZero ≠ Byte.dot := by decide
  refine ⟨?_, ?_, b, by simp [hb], hdigit⟩
  · intro c hc
    simp only [List.mem_append, List.mem_replicate] at hc
    rcases hc with (⟨-, rfl⟩ | hc) | ⟨-, rfl⟩
    · exact .inl rfl
    · exact hbytes c hc
    · exact .inl rfl
  · simpa [List.count_append, List.count_replicate, hzero] using hpoint

/-- The text of a token that is spelled as a number is a numeral, since a number is its own
spelling. -/
theorem Spelling.isNumeral {kind : TokenKind} {text span : Text} (h : Spelling kind text span)
    (hkind : kind = .number) : IsNumeral text := by
  cases h with
  | number h => exact h
  | _ => cases hkind

/-- A number token `t` that `scan` reads has a numeral as its text. -/
theorem Cursor.isNumeral_of_scan {c c' : Cursor} {t : Token} (h : c.scan = (.ok t, c'))
    (hkind : t.kind = .number) : IsNumeral t.text := by
  rcases scan_spec h with ⟨rfl, -⟩ | ⟨piece, rfl, -, hfits, -⟩
  · cases hkind
  · exact hfits.spelling.isNumeral hkind

/-- Every number token `t` of a program has a numeral as its text. -/
theorem Token.isNumeral_of_mem {source : Text} {ts : List Token} {t : Token}
    (h : ofSource source = .ok ts) (ht : t ∈ ts) (hkind : t.kind = .number) :
    IsNumeral t.text := by
  obtain ⟨pieces, trailing, rfl, -, -, hall⟩ := Cursor.scanAll_spec h [] rfl
  rcases List.mem_append.mp ht with hpiece | hmarker
  · obtain ⟨piece, hmem, rfl⟩ := List.mem_map.mp hpiece
    obtain ⟨earlier, later, rfl⟩ := List.append_of_mem hmem
    exact (hall earlier piece later rfl).1.spelling.isNumeral hkind
  · rw [List.mem_singleton.mp hmarker] at hkind
    cases hkind

namespace Program

namespace Reading

variable {α β : Type} {p : Reading α} {q : α → Reading β}

/-- The reading `p` refuses a number (`invalidNumber`) only for the text of a number token among its
tokens that is no numeral. -/
def Blames (p : Reading α) : Prop :=
  ∀ last ts e literal, p last ts = .error e → e.problem = .invalidNumber literal →
    ∃ t ∈ ts, t.kind = .number ∧ t.text = literal ∧ ¬ IsNumeral literal

/-- A value `a` that needs no tokens refuses nothing, so it blames none of them. -/
theorem blames_pure (a : α) : Blames fun _ ts => .ok (a, ts) := by
  intro last ts e literal h
  cases h

/-- The error of `refuse` is for the `problem` that is refused. -/
theorem problem_of_refuse {last : Position} {ahead : List Token} {problem : SyntaxProblem}
    {e : SyntaxError} (h : (refuse last ahead problem : Except SyntaxError α) = .error e) :
    e.problem = problem := by
  obtain rfl := Except.error.inj h
  rfl

/-- If the readings `p` and `q a` blame their own tokens, then so does `p.bind q`: the tokens that
`q a` is given are among those of `p`, since `p` is predictive. -/
theorem Blames.bind (hp : p.Blames) (hpredictive : p.Predictive) (hq : ∀ a, (q a).Blames) :
    (p.bind q).Blames := by
  intro last ts e literal h hproblem
  cases hpts : p last ts with
  | error e' =>
    rw [Reading.bind, hpts] at h
    obtain rfl := Except.error.inj h
    exact hp last ts e' literal hpts hproblem
  | ok r =>
    obtain ⟨a, rest⟩ := r
    obtain ⟨head, rfl, -⟩ := hpredictive.takes hpts
    rw [bind_of_ok hpts] at h
    obtain ⟨t, ht, hblamed⟩ := hq a last rest e literal h hproblem
    exact ⟨t, List.mem_append_right _ ht, hblamed⟩

/-- The reading `one` of a `check` blames a number if the check does so for its token's own text
(`hcheck`), and if a missing token is not reported as a number. -/
theorem blames_one {missing : SyntaxProblem} {check : Token → Except SyntaxProblem α}
    (hmissing : ∀ literal, missing ≠ .invalidNumber literal)
    (hcheck : ∀ {t literal}, check t = .error (.invalidNumber literal) →
      t.kind = .number ∧ t.text = literal ∧ ¬ IsNumeral literal) : (one missing check).Blames := by
  intro last ts e literal h hproblem
  -- Without a token the problem is `missing`, which is none of the kind; with one it is that of
  -- `check`.
  cases ts with
  | nil => exact absurd ((problem_of_refuse h).symm.trans hproblem) (hmissing literal)
  | cons t rest =>
    cases ht : check t with
    | ok a =>
      rw [one, ht] at h
      cases h
    | error problem =>
      rw [one, ht] at h
      obtain rfl : problem = .invalidNumber literal := (problem_of_refuse h).symm.trans hproblem
      exact ⟨t, List.mem_cons_self, hcheck ht⟩

end Reading

open Sketch.Program.Reading

/-- The readings `p` of operands blame a number only for its own text: among their checks, only
`numberOf` refuses a number. -/
theorem Operands.blames {α : Type} {p : Reading α} (h : Operands p) : p.Blames := by
  induction h with
  | none a => exact blames_pure a
  | number statement =>
    refine blames_one (by simp) ?_
    intro t literal h
    unfold numberOf at h
    split at h
    · split at h
      · cases h
      · -- The one check of all that can call a number invalid.
        obtain rfl := SyntaxProblem.invalidNumber.inj (Except.error.inj h)
        exact ⟨‹_›, rfl, Binary64.ofLiteral?_eq_none_iff.mp ‹_›⟩
    · cases h
  | colorKeyword =>
    refine blames_one (by simp) ?_
    intro t literal h
    unfold colorKeywordOf at h
    split at h <;> cases h
  | color =>
    refine blames_one (by simp) ?_
    intro t literal h
    unfold colorOf at h
    split at h <;> cases h
  | penAction =>
    refine blames_one (by simp) ?_
    intro t literal h
    unfold penActionOf at h
    split at h
    · cases h
    split at h
    · cases h
    split at h <;> cases h
  | bind hp _ ihp ihq => exact ihp.bind hp.predictive ihq

/-- If `draw` refuses a shape for a number, it blames one of the number tokens of that shape. -/
theorem blames_draw : Blames draw := by
  intro last ts e literal h hproblem
  cases ts with
  | nil => simp [problem_of_refuse h] at hproblem
  | cons t rest =>
    -- The tokens of a shape are those after its first one.
    have hrest : ∀ p : Reading Action, p.Blames → p last rest = .error e →
        ∃ u ∈ t :: rest, u.kind = .number ∧ u.text = literal ∧ ¬ IsNumeral literal := by
      intro p hp hpe
      obtain ⟨u, hu, hblamed⟩ := hp last rest e literal hpe hproblem
      exact ⟨u, List.mem_cons_of_mem t hu, hblamed⟩
    rw [draw] at h
    split at h
    · simp [problem_of_refuse h] at hproblem
    split at h
    · exact hrest line operands_line.blames h
    split at h
    · exact hrest circle operands_circle.blames h
    split at h
    · exact hrest rectangle operands_rectangle.blames h
    · simp [problem_of_refuse h] at hproblem

/-- If `action` refuses a statement for a number, it blames one of the number tokens of that
statement, whatever its `word` is. -/
theorem blames_action (word : Text) : Blames fun last ts => action last word ts := by
  unfold action
  split
  · exact blames_draw
  split
  · exact operands_set.blames
  split
  · exact blames_pure Action.clear
  split
  · exact operands_move.blames
  split
  · exact operands_pen.blames
  · intro last ts e literal h hproblem
    simp [problem_of_refuse h] at hproblem

/-- If `statements` refuses tokens for a number `literal`, that is the text of one of the number
tokens of `ts`, and no numeral. -/
theorem exists_blamed_of_statements {last : Position} {ts : List Token} {e : SyntaxError}
    {literal : Text} (h : statements last ts = .error e)
    (hproblem : e.problem = .invalidNumber literal) :
    ∃ t ∈ ts, t.kind = .number ∧ t.text = literal ∧ ¬ IsNumeral literal := by
  induction ts using statements.induct last with
  | case1 => simp at h
  | case2 t rest hend => simp [statements_of_endOfInput hend] at h
  | case3 t rest hend hkind =>
    rw [statements_of_kind_ne hend hkind] at h
    simp [problem_of_refuse h] at hproblem
  | case4 t rest hend hkind e' he =>
    rw [statements_of_refusal (not_not.mp hkind) he] at h
    obtain rfl := Except.error.inj h
    obtain ⟨u, hu, hblamed⟩ := blames_action t.text last rest e' literal he hproblem
    exact ⟨u, List.mem_cons_of_mem t hu, hblamed⟩
  | case5 t rest hend hkind a after ha hlt ih =>
    have ht := not_not.mp hkind
    obtain ⟨operands, rfl, -, -⟩ := statement_of_action ht ha
    rw [statements_of_action ht ha, map_eq_error_iff] at h
    -- What follows the statement is among the tokens of the program.
    obtain ⟨u, hu, hblamed⟩ := ih h
    exact ⟨u, by simp [hu], hblamed⟩

/-- No program is refused for an invalid number: its number tokens are numerals
(`Token.isNumeral_of_mem`), and a numeral is not to blame. -/
theorem problem_ne_invalidNumber {marked : Bool} {source : Text} {e : SyntaxError}
    (h : read marked source = .error (.grammatical e)) (literal : Text) :
    e.problem ≠ .invalidNumber literal := by
  intro hproblem
  unfold read at h
  cases hts : Token.ofSource source with
  | error e' =>
    rw [hts] at h
    cases h
  | ok ts =>
    simp only [hts] at h
    generalize hown : (if marked then ts else ts.dropLast) = own at h
    cases hread : ofTokens own with
    | ok cs =>
      rw [hread] at h
      cases h
    | error e' =>
      rw [hread] at h
      obtain rfl : e' = e := by simpa [Except.mapError] using h
      -- The blamed token is among those of the program, whether or not its last one is parsed.
      obtain ⟨t, ht, hkind, rfl, hnot⟩ := exists_blamed_of_statements hread hproblem
      have hmem : t ∈ ts := by
        rw [← hown] at ht
        split at ht
        · exact ht
        · exact List.mem_of_mem_dropLast ht
      exact hnot (Token.isNumeral_of_mem hts hmem hkind)

section Number

variable (last place : Position) (statement : NumericStatement) (rest : List Token)

/-- A numeral `t` is read by `number` as the number without a sign that is nearest to its value. -/
theorem number_of_isNumeral {t : Text} (h : IsNumeral t) :
    ∃ m, number last statement (⟨.number, t, place⟩ :: rest) = .ok (.signed false m, rest) ∧
      m.IsNearest t.fixedValue := by
  obtain ⟨m, hm, hnearest⟩ := Binary64.exists_ofNumeral_isNearest t
  have hnumber : Token.IsNumber ⟨.number, t, place⟩ (.signed false m) := ⟨rfl, h, hm.symm⟩
  exact ⟨m, number_of_isNumber hnumber last statement rest, hnearest⟩

/-- A text `t` that is no numeral is refused by `number`, with the text in the problem and the place
of its token. -/
theorem number_of_not_isNumeral {t : Text} (h : ¬ IsNumeral t) :
    number last statement (⟨.number, t, place⟩ :: rest) = .error ⟨.invalidNumber t, place⟩ := by
  simp [number, Binary64.ofLiteral?_eq_none_iff.mpr h, refuse, placeOf]

/-- What `number` reads from a number token with the text `t` is the number nearest to the value of
`t`. -/
theorem isNearest_of_number {t : Text} {m : Magnitude}
    (h : number last statement (⟨.number, t, place⟩ :: rest) = .ok (.signed false m, rest)) :
    m.IsNearest t.fixedValue := by
  obtain ⟨u, hu, -, hnumeral, -⟩ := number_eq_ok_iff.mp h
  obtain ⟨rfl, -⟩ := List.cons.inj hu
  obtain ⟨n, hn, hnearest⟩ := number_of_isNumeral last place statement rest hnumeral
  rw [h] at hn
  cases hn
  exact hnearest

/-- Two numerals `s` and `t` of the same value are read by `number` as the same number. -/
theorem number_congr {s t : Text} (hs : IsNumeral s) (ht : IsNumeral t)
    (h : s.fixedValue = t.fixedValue) : number last statement (⟨.number, s, place⟩ :: rest) =
      number last statement (⟨.number, t, place⟩ :: rest) := by
  obtain ⟨m, hm, hnearest⟩ := number_of_isNumeral last place statement rest hs
  obtain ⟨n, hn, hnearest'⟩ := number_of_isNumeral last place statement rest ht
  rw [h] at hnearest
  rw [hm, hn, hnearest.eq hnearest']

end Number

/-- The number that is read from a number token is the one nearest to the value of its text, if the
text is a numeral, and the only one. It is zero up to half of the least positive number. Any other
text is refused. A numeral of greater or equal value is not read as a smaller number, and zeros in
front of a numeral or behind its fraction make no difference. All number tokens of programs are
numerals, and no program is refused for an invalid number. -/
theorem numerals_denote_nearest (last place : Position) (statement : NumericStatement)
    (rest : List Token) :
    let readFrom := fun t => number last statement (⟨.number, t, place⟩ :: rest)
    (∀ t, IsNumeral t → ∃ m, readFrom t = .ok (.signed false m, rest) ∧
      (∀ n, n.IsNearest t.fixedValue ↔ n = m) ∧
      (m = .zero ↔ t.fixedValue ≤ 1 / 2 ^ 1075)) ∧
    (∀ t, ¬ IsNumeral t → readFrom t = .error ⟨.invalidNumber t, place⟩) ∧
    (∀ s t m n, readFrom s = .ok (.signed false m, rest) →
      readFrom t = .ok (.signed false n, rest) → s.fixedValue ≤ t.fixedValue → m.rank ≤ n.rank) ∧
    (∀ t k, IsNumeral t → readFrom (List.replicate k Byte.digitZero ++ t) = readFrom t ∧
      (Byte.dot ∈ t → readFrom (t ++ List.replicate k Byte.digitZero) = readFrom t)) ∧
    (∀ (c c' : Cursor) t, c.scan = (.ok t, c') → t.kind = .number → IsNumeral t.text) ∧
    ∀ marked source e literal, read marked source = .error (.grammatical e) →
      e.problem ≠ .invalidNumber literal := by
  intro readFrom
  refine ⟨?_, fun t => number_of_not_isNumeral last place statement rest, ?_, ?_,
    fun c c' t => Cursor.isNumeral_of_scan, fun marked source e literal h =>
    problem_ne_invalidNumber h literal⟩
  · intro t ht
    obtain ⟨m, hm, hnearest⟩ := number_of_isNumeral last place statement rest ht
    -- There is only one nearest size, so that being nearest is being `m`.
    refine ⟨m, hm, fun n => ⟨fun hn => hn.eq hnearest, ?_⟩, hnearest.eq_zero_iff⟩
    rintro rfl
    exact hnearest
  · intro s t m n hs ht hle
    exact (isNearest_of_number last place statement rest hs).rank_le
      (isNearest_of_number last place statement rest ht) hle
  · intro t k ht
    -- Zeros in front and behind are two cases of one lemma.
    have hfront := ht.zeros k 0
    have hback := ht.zeros 0 k
    rw [List.replicate_zero, List.append_nil] at hfront
    rw [List.replicate_zero, List.nil_append] at hback
    exact ⟨number_congr last place statement rest hfront ht (Text.fixedValue_zeros k t),
      fun hdot => number_congr last place statement rest hback ht
        (Text.fixedValue_append_zeros hdot k)⟩

/-- One half is nearest to what `.5` says, also with zeros around it, and it is not below one tenth.
A text with two points is refused. The token at the head of a text is a numeral, and a program with
a number missing is refused for that. -/
theorem numerals_denote_nearest_half :
    let readFrom := fun t => number .start .move [⟨.number, t, ⟨1, 5⟩⟩]
    let half : Magnitude := ⟨1022 * 2 ^ 52, by decide⟩
    let tenth : Magnitude := ⟨0x3fb999999999999a, by decide⟩
    IsNumeral (ascii ".5") ∧ readFrom (ascii ".5") = .ok (.signed false half, []) ∧
      (∀ n, n.IsNearest (Text.fixedValue (ascii ".5")) ↔ n = half) ∧
      (half = .zero ↔ Text.fixedValue (ascii ".5") ≤ 1 / 2 ^ 1075) ∧
      ¬ IsNumeral (ascii "1.2.3") ∧
      readFrom (ascii "1.2.3") = .error ⟨.invalidNumber (ascii "1.2.3"), ⟨1, 5⟩⟩ ∧
      Text.fixedValue (ascii "0.1") ≤ Text.fixedValue (ascii ".5") ∧ tenth.rank ≤ half.rank ∧
      readFrom (ascii "00.5") = readFrom (ascii ".5") ∧
      readFrom (ascii ".500") = readFrom (ascii ".5") ∧
      (Cursor.ofSource (ascii " 2")).scan =
        (.ok ⟨.number, ascii "2", ⟨1, 1⟩⟩, ⟨[], ⟨1, 2⟩⟩) ∧ IsNumeral (ascii "2") ∧
      read true (ascii "move 1") = .error (.grammatical ⟨.numberExpected .move, ⟨1, 6⟩⟩) ∧
      SyntaxProblem.numberExpected .move ≠ .invalidNumber (ascii "1") := by
  intro readFrom half tenth
  obtain ⟨haccepts, hrefuses, hmono, hzeros, hscan, hread⟩ :=
    numerals_denote_nearest .start ⟨1, 5⟩ .move []
  have hhalf : readFrom (ascii ".5") = .ok (.signed false half, []) := by decide +kernel
  have htenth : readFrom (ascii "0.1") = .ok (.signed false tenth, []) := by decide +kernel
  have hnumeral : IsNumeral (ascii ".5") := by
    refine ⟨?_, by decide, 53, by decide, rfl⟩
    have hbytes : ascii ".5" = [Byte.dot, 53] := by decide
    rw [hbytes]
    exact List.forall_mem_cons.mpr ⟨.inr rfl, List.forall_mem_singleton.mpr (.inl rfl)⟩
  have hpoints : ¬ IsNumeral (ascii "1.2.3") := fun h => absurd h.point (by decide)
  have hle : Text.fixedValue (ascii "0.1") ≤ Text.fixedValue (ascii ".5") := by decide +kernel
  have htoken : (Cursor.ofSource (ascii " 2")).scan =
      (.ok ⟨.number, ascii "2", ⟨1, 1⟩⟩, ⟨[], ⟨1, 2⟩⟩) := by
    decide +kernel
  have hmove : read true (ascii "move 1") =
      .error (.grammatical ⟨.numberExpected .move, ⟨1, 6⟩⟩) := by
    decide +kernel
  obtain ⟨m, hm, hnearest, hzero⟩ := haccepts _ hnumeral
  -- The nearest size comes as some `m`, and what was read tells that it is `half`.
  obtain ⟨hsame, -⟩ := Prod.mk.inj (Except.ok.inj (hhalf.symm.trans hm))
  obtain rfl : half = m := (Binary64.signed.inj hsame).2
  exact ⟨hnumeral, hhalf, hnearest, hzero, hpoints, hrefuses _ hpoints, hle,
    hmono _ _ _ _ htenth hhalf hle, (hzeros _ 2 hnumeral).1,
    (hzeros _ 2 hnumeral).2 (by decide), htoken, hscan _ _ _ htoken rfl, hmove,
    hread _ _ _ _ hmove⟩

end Program

end Sketch
