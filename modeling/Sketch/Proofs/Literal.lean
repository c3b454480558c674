import Mathlib.Data.List.TakeWhile
import Sketch.Binary64.Literal

/-!
# Number literals are numerals

A numeral is a text of digits with at most one point among them and at least one digit
(`IsNumeral`). Its value is read off the digits before the point and after it
(`Binary64.ofNumeral`). `Binary64.ofLiteral?_eq_some_iff` shows that the literals of the language
are the numerals, each with that value.
-/

namespace Sketch

namespace Text

/-- What stands in `t` before the first byte `mark`, which is all of `t` if there is none. -/
def beforeFirst (mark : Byte) (t : Text) : Text := t.takeWhile (· != mark)

/-- What stands in `t` after the first byte `mark`, which is nothing if there is none. -/
def afterFirst (mark : Byte) (t : Text) : Text := (t.dropWhile (· != mark)).drop 1

section Parts

variable {mark : Byte} {s : Text} (h : mark ∉ s)
include h

/-- A text `s` without the byte `mark` is all `beforeFirst` it, and nothing is `afterFirst` it. -/
theorem parts_of_notMem : beforeFirst mark s = s ∧ afterFirst mark s = [] := by
  have hne : ∀ b ∈ s, (b != mark) = true := fun b hb => bne_iff_ne.mpr fun heq => h (heq ▸ hb)
  rw [beforeFirst, afterFirst, List.takeWhile_eq_self_iff.mpr hne,
    List.dropWhile_eq_nil_iff.mpr hne]
  exact ⟨rfl, rfl⟩

/-- The parts `s` and `t` around a byte `mark` are found again by `beforeFirst` and `afterFirst`, if
`s` holds no `mark`. -/
theorem parts_append_cons (t : Text) :
    beforeFirst mark (s ++ mark :: t) = s ∧ afterFirst mark (s ++ mark :: t) = t := by
  have hne : ∀ b ∈ s, (b != mark) = true := fun b hb => bne_iff_ne.mpr fun heq => h (heq ▸ hb)
  rw [beforeFirst, afterFirst, List.takeWhile_append_of_pos hne, List.dropWhile_append_of_pos hne,
    List.takeWhile_cons_of_neg (by simp), List.dropWhile_cons_of_neg (by simp), List.append_nil]
  exact ⟨rfl, rfl⟩

end Parts

/-- A text is cut in only one way at its first byte `mark`: two cuts whose front parts hold no
`mark` have the same parts. -/
theorem append_cons_inj {mark : Byte} {s s' t t' : Text} (hs : mark ∉ s) (hs' : mark ∉ s')
    (h : s ++ mark :: t = s' ++ mark :: t') : s = s' ∧ t = t' := by
  obtain ⟨hbefore, hafter⟩ := parts_append_cons hs t
  obtain ⟨hbefore', hafter'⟩ := parts_append_cons hs' t'
  rw [h] at hbefore hafter
  exact ⟨hbefore.symm.trans hbefore', hafter.symm.trans hafter'⟩

/-- A text is cut in only one way at its last byte `mark`: two cuts whose back parts hold no `mark`
have the same parts. -/
theorem append_cons_inj_of_last {mark : Byte} {s s' t t' : Text} (ht : mark ∉ t) (ht' : mark ∉ t')
    (h : s ++ mark :: t = s' ++ mark :: t') : s = s' ∧ t = t' := by
  have hreverse : t.reverse ++ mark :: s.reverse = t'.reverse ++ mark :: s'.reverse := by
    simpa using congrArg List.reverse h
  obtain ⟨hafter, hbefore⟩ := append_cons_inj (by simpa using ht) (by simpa using ht') hreverse
  exact ⟨List.reverse_inj.mp hbefore, List.reverse_inj.mp hafter⟩

end Text

/-- The text `t` is a number literal of the language: digits with at most one point among them, and
at least one digit. -/
structure IsNumeral (t : Text) : Prop where
  /-- Every byte is a digit or a point. -/
  bytes : ∀ b ∈ t, b.isDigit ∨ b = Byte.dot
  /-- There is at most one point. -/
  point : t.count Byte.dot ≤ 1
  /-- There is a digit. -/
  digit : ∃ b ∈ t, b.isDigit

/-- The number that `Binary64.ofDigits` gives to a numeral `t`: the digits before its point, and the
digits after it as a fraction. -/
def Binary64.ofNumeral (t : Text) : Binary64 :=
  ofDigits (t.takeWhile (· != Byte.dot)) ((t.dropWhile (· != Byte.dot)).drop 1)

/-- The point is no digit, so a run of digits stops at it. -/
@[simp]
theorem Byte.isDigit_dot : Byte.isDigit Byte.dot = false := rfl

/-- A byte `b` that is a digit is not the point. -/
theorem Byte.ne_dot_of_isDigit {b : Byte} (h : b.isDigit) : b ≠ Byte.dot := by
  rintro rfl
  simp at h

/-- There is no point among `digits`, so both sides of a numeral's point are determined by the text.
-/
theorem dot_notMem_of_digits {digits : Text} (h : ∀ b ∈ digits, Byte.isDigit b) :
    Byte.dot ∉ digits := by
  intro hdot
  exact Byte.ne_dot_of_isDigit (h _ hdot) rfl

/-- A run of `digits` without a point is a numeral exactly when it is not empty. -/
theorem isNumeral_digits {digits : Text} (h : ∀ b ∈ digits, Byte.isDigit b) :
    IsNumeral digits ↔ digits ≠ [] := by
  constructor
  · rintro ⟨-, -, b, hb, -⟩ rfl
    simp at hb
  · intro hne
    obtain ⟨b, rest, rfl⟩ := List.exists_cons_of_ne_nil hne
    have hpoint := List.count_eq_zero.mpr (dot_notMem_of_digits h)
    exact ⟨fun c hc => .inl (h c hc), by omega, b, by simp, h b (by simp)⟩

/-- A text with a point after the digits `whole` is a numeral exactly when only digits follow the
point, in `fraction`, and there is a digit on one side of it. -/
theorem isNumeral_point {whole fraction : Text} (h : ∀ b ∈ whole, Byte.isDigit b) :
    IsNumeral (whole ++ Byte.dot :: fraction) ↔
      (∀ b ∈ fraction, Byte.isDigit b) ∧ (whole ≠ [] ∨ fraction ≠ []) := by
  have hwhole := List.count_eq_zero.mpr (dot_notMem_of_digits h)
  have hcount : (whole ++ Byte.dot :: fraction).count Byte.dot = fraction.count Byte.dot + 1 := by
    rw [List.count_append, List.count_cons_self, hwhole, Nat.zero_add]
  constructor
  · -- The one point that a numeral may have is the point in the middle, so `fraction` has none.
    rintro ⟨hbytes, hpoint, b, hb, hdigit⟩
    have hdot : Byte.dot ∉ fraction := List.count_eq_zero.mp (by omega)
    constructor
    · intro c hc
      refine (hbytes c (by simp [hc])).resolve_right ?_
      rintro rfl
      exact hdot hc
    · rcases List.mem_append.mp hb with hb | hb
      · exact .inl (List.ne_nil_of_mem hb)
      · rcases List.mem_cons.mp hb with rfl | hb
        · simp at hdigit
        · exact .inr (List.ne_nil_of_mem hb)
  · rintro ⟨hfraction, hne⟩
    have hdot := List.count_eq_zero.mpr (dot_notMem_of_digits hfraction)
    refine ⟨?_, by omega, ?_⟩
    · intro b hb
      rcases List.mem_append.mp hb with hb | hb
      · exact .inl (h b hb)
      · rcases List.mem_cons.mp hb with rfl | hb
        · exact .inr rfl
        · exact .inl (hfraction b hb)
    · rcases hne with hne | hne
      · obtain ⟨b, rest, rfl⟩ := List.exists_cons_of_ne_nil hne
        exact ⟨b, by simp, h b (by simp)⟩
      · obtain ⟨b, rest, rfl⟩ := List.exists_cons_of_ne_nil hne
        exact ⟨b, by simp, hfraction b (by simp)⟩

namespace Binary64

/-- A numeral of `digits` without a point has the value that `ofDigits` gives them with no fraction.
-/
theorem ofNumeral_digits {digits : Text} (h : ∀ b ∈ digits, Byte.isDigit b) :
    ofNumeral digits = ofDigits digits [] := by
  obtain ⟨hbefore, hafter⟩ := Text.parts_of_notMem (dot_notMem_of_digits h)
  exact congrArg₂ ofDigits hbefore hafter

/-- A numeral with a point after the digits `whole` has the value that `ofDigits` gives to `whole`
and `fraction`. -/
theorem ofNumeral_point {whole fraction : Text} (h : ∀ b ∈ whole, Byte.isDigit b) :
    ofNumeral (whole ++ Byte.dot :: fraction) = ofDigits whole fraction := by
  obtain ⟨hbefore, hafter⟩ := Text.parts_append_cons (dot_notMem_of_digits h) fraction
  exact congrArg₂ ofDigits hbefore hafter

/-- The literals that `ofLiteral?` accepts are the numerals (`IsNumeral`), and a literal `t` stands
for `ofNumeral t`. -/
theorem ofLiteral?_eq_some_iff {t : Text} {x : Binary64} :
    ofLiteral? t = some x ↔ IsNumeral t ∧ x = ofNumeral t := by
  have hsplit := List.takeWhile_append_dropWhile (p := Byte.isDigit) (l := t)
  have hwhole : ∀ b ∈ t.takeWhile Byte.isDigit, Byte.isDigit b :=
    List.all_eq_true.mp List.all_takeWhile
  have hstop := List.head?_dropWhile_not Byte.isDigit t
  unfold ofLiteral?
  generalize t.takeWhile Byte.isDigit = whole at hsplit hwhole ⊢
  generalize t.dropWhile Byte.isDigit = rest at hsplit hstop ⊢
  subst hsplit
  cases rest with
  | nil =>
    rw [List.append_nil, isNumeral_digits hwhole, ofNumeral_digits hwhole]
    by_cases hne : whole = [] <;> simp [hne, eq_comm (a := x)]
  | cons b fraction =>
    -- The byte at which the digits stop is no digit, so a numeral has its point there.
    by_cases hdot : b = Byte.dot
    · subst hdot
      rw [isNumeral_point hwhole, ofNumeral_point hwhole]
      by_cases hne : whole = [] <;> by_cases hne' : fraction = [] <;>
        simp [hne, hne', eq_comm (a := x)]
    · have hnot : ¬ IsNumeral (whole ++ b :: fraction) := fun hnumeral =>
        (hnumeral.bytes b (by simp)).elim (by simpa using hstop) hdot
      simp [hdot, hnot]

end Binary64

end Sketch
