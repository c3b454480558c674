import Sketch.Proofs.Stages

/-!
# Programs write no minus sign

A literal has no sign, so a number that a program writes has its sign bit clear, and it is a number
(`Binary64.Unsigned`). It may be infinite, since a literal may have as many digits as it likes.
`Program.unsigned_of_read` shows that all numbers of the commands of a program are of this kind: the
commands come from statements, and each number of a statement from a literal.
-/

namespace Sketch

namespace Binary64

/-- The number `x` is not a NaN, and its sign bit is clear. -/
def Unsigned (x : Binary64) : Prop := ¬ x.isNaN ∧ x.toBits.toNat < signBit

variable {x : Binary64}

/-- The numbers without a sign are those of all sizes `m`, finite or not, and none of them is a NaN.
-/
theorem unsigned_iff : x.Unsigned ↔ ∃ m, x = signed false m := by
  cases x with
  | notNumber negative => simp [Unsigned, isNaN]
  | signed negative m =>
    have hm : m.rank ≤ 0x7ff0000000000000 := m.rank_le
    rw [Unsigned, isNaN, toNat_toBits_signed, signBit]
    cases negative
    · simp
      omega
    · simp

/-- The exact value `a` of a number without a sign is not negative, since its units are a natural
number. -/
theorem Unsigned.units_nonneg {a : Int} (h : x.Unsigned) (ha : x.units? = some a) : 0 ≤ a := by
  obtain ⟨m, rfl⟩ := unsigned_iff.mp h
  simp only [units?, Option.ite_none_right_eq_some, Option.some.injEq] at ha
  obtain ⟨-, rfl⟩ := ha
  exact Int.natCast_nonneg m.units

/-- A numeral `t` denotes a number without a sign: the language has no minus sign. -/
theorem unsigned_ofNumeral (t : Text) : (ofNumeral t).Unsigned := unsigned_iff.mpr ⟨_, rfl⟩

end Binary64

namespace Action

/-- No number of the action `a` has a sign (`Binary64.Unsigned`). -/
def Unsigned (a : Action) : Prop := ∀ x ∈ a.numbers, x.Unsigned

variable {x y x1 y1 x2 y2 radius width height : Binary64}

/-- A line has no sign if its four coordinates have none. -/
theorem unsigned_drawLine : (drawLine x1 y1 x2 y2).Unsigned ↔
    x1.Unsigned ∧ y1.Unsigned ∧ x2.Unsigned ∧ y2.Unsigned := by
  simp [Unsigned, numbers]

/-- A circle has no sign if its center and its `radius` have none. -/
theorem unsigned_drawCircle : (drawCircle x y radius).Unsigned ↔
    x.Unsigned ∧ y.Unsigned ∧ radius.Unsigned := by
  simp [Unsigned, numbers]

/-- A rectangle has no sign if its corner, its `width` and its `height` have none. -/
theorem unsigned_drawRectangle : (drawRectangle x y width height).Unsigned ↔
    x.Unsigned ∧ y.Unsigned ∧ width.Unsigned ∧ height.Unsigned := by
  simp [Unsigned, numbers]

/-- A move has no sign if the point that it goes to has none. -/
theorem unsigned_move : (move x y).Unsigned ↔ x.Unsigned ∧ y.Unsigned := by
  simp [Unsigned, numbers]

end Action

/-- A number token `t` stands for a number `x` without a sign, since it is the value of a numeral.
-/
theorem Token.IsNumber.unsigned {t : Token} {x : Binary64} (h : t.IsNumber x) : x.Unsigned := by
  obtain ⟨-, -, rfl⟩ := h
  exact Binary64.unsigned_ofNumeral t.text

/-- The numbers of a `Statement` have no sign, since each of them is the value of one of its tokens.
-/
theorem Statement.unsigned {ts : List Token} {c : Command} (h : Statement ts c) :
    c.action.Unsigned := by
  cases h with
  | drawLine _ _ ha hb hc hd =>
    exact Action.unsigned_drawLine.mpr ⟨ha.unsigned, hb.unsigned, hc.unsigned, hd.unsigned⟩
  | drawCircle _ _ ha hb hc =>
    exact Action.unsigned_drawCircle.mpr ⟨ha.unsigned, hb.unsigned, hc.unsigned⟩
  | drawRectangle _ _ ha hb hc hd =>
    exact Action.unsigned_drawRectangle.mpr ⟨ha.unsigned, hb.unsigned, hc.unsigned, hd.unsigned⟩
  | move _ ha hb => exact Action.unsigned_move.mpr ⟨ha.unsigned, hb.unsigned⟩
  | setColor | clear | penUp | penDown => simp [Action.Unsigned, Action.numbers]

namespace Program

variable {cs : List Command}

/-- The commands `cs` that `ofTokens` reads have no signs, whatever list of tokens they come from.
-/
theorem unsigned_of_ofTokens {ts : List Token} (h : ofTokens ts = .ok cs) :
    ∀ c ∈ cs, c.action.Unsigned := by
  obtain ⟨pieces, -, hall⟩ := statements_sound h
  clear h
  induction hall with
  | nil => simp
  | cons hstatement _ ih => exact List.forall_mem_cons.mpr ⟨hstatement.unsigned, ih⟩

/-- The commands `cs` of a program have no signs. So a negative number can only come from a command
list that no program denotes. -/
theorem unsigned_of_read {marked : Bool} {source : Text} (h : read marked source = .ok cs) :
    ∀ c ∈ cs, c.action.Unsigned := by
  unfold read at h
  split at h
  · cases h
  · exact unsigned_of_ofTokens (mapError_eq_ok_iff.mp h)

end Program

end Sketch
