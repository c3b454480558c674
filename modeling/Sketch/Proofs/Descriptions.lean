import Sketch.Command
import Sketch.Proofs.Printing
import Sketch.Proofs.Writing

/-!
# Descriptions tell commands apart

Two commands look alike if they are of one kind, name the same color, and have numbers that are
printed alike (`Action.LooksLike`). `Command.describe_eq_describe_iff` shows that their descriptions
are equal exactly if they look alike and stand at the same place. The name of a color is written
without any escapes, and may well look like the end of a description.

So a description is read from both ends. No blank is in the digits of the place, so that it starts
at the last blanks, whatever is in front of it (`Position.eq_of_describe`). What is left starts with
the words of the action, none of which go on as those of another (`Action.name_eq_of_append`). The
numbers follow with a blank before each, and again there is none in them
(`Binary64.text_eq_of_flatMap`).
-/

namespace Sketch

/-! ## The place -/

/-- The digits that `Text.ofNat` writes of a number are those of no other. -/
theorem Text.ofNat_injective : Function.Injective Text.ofNat :=
  Function.LeftInverse.injective Text.digitsValue_ofNat

/-- There is no blank among the digits of a number `n`. -/
theorem Text.blank_notMem_ofNat (n : Nat) : Byte.blank ∉ Text.ofNat n :=
  (isDigits_ofNat n).notMem rfl

/-- The place at the end of a description is read off it, and so is what stands before: `s` is `s'`
and `p` is `p'`. -/
theorem Position.eq_of_describe {s s' : Text} {p p' : Position}
    (h : s ++ ascii " (" ++ p.text ++ ascii ")" = s' ++ ascii " (" ++ p'.text ++ ascii ")") :
    s = s' ∧ p = p' := by
  have hblanks : ∀ (u : Text) (q : Position), u ++ ascii " (" ++ q.text =
      ((u ++ ascii " (line") ++ Byte.blank :: Text.ofNat q.line.toNat ++ ascii ", column") ++
        Byte.blank :: Text.ofNat q.column.toNat := by
    have hline : ascii " (" ++ ascii "line " = ascii " (line" ++ [Byte.blank] := rfl
    have hcolumn : ascii ", column " = ascii ", column" ++ [Byte.blank] := rfl
    intro u q
    rw [Position.text, hcolumn]
    simp only [List.append_assoc, List.cons_append, List.nil_append]
    rw [← List.append_assoc (ascii " ("), hline]
    simp only [List.append_assoc, List.cons_append, List.nil_append]
  -- The place has a blank in front of each of its two numbers, and none within them.
  have hcut := List.append_cancel_right h
  rw [hblanks, hblanks] at hcut
  obtain ⟨hbefore, hcolumn⟩ := Text.append_cons_inj_of_last (Text.blank_notMem_ofNat _)
    (Text.blank_notMem_ofNat _) hcut
  obtain ⟨hfront, hline⟩ := Text.append_cons_inj_of_last (Text.blank_notMem_ofNat _)
    (Text.blank_notMem_ofNat _) (List.append_cancel_right hbefore)
  refine ⟨List.append_cancel_right hfront, ?_⟩
  rw [Position.mk.injEq, ← UInt32.toNat_inj, ← UInt32.toNat_inj]
  exact ⟨Text.ofNat_injective hline, Text.ofNat_injective hcolumn⟩

/-! ## The numbers -/

/-- There is no blank in the text of a number `x`, finite or not. -/
theorem Binary64.blank_notMem_text (x : Binary64) : Byte.blank ∉ x.text :=
  x.notMem_text rfl (by decide) (by decide)

/-- The texts `t :: ts` with blanks between them are `t` and then each of `ts` behind a blank. -/
theorem Text.intercalate_blank (t : Text) (ts : List Text) :
    [Byte.blank].intercalate (t :: ts) = t ++ ts.flatMap (Byte.blank :: ·) := by
  induction ts generalizing t with
  | nil => simp
  | cons t' ts ih => simp [List.intercalate_cons_cons, ih]

/-- Texts `ts` without blanks are read off one after the other if each follows a blank. -/
theorem Text.flatMap_blank_inj {ts ts' : List Text} (hts : ∀ t ∈ ts, Byte.blank ∉ t)
    (hts' : ∀ t ∈ ts', Byte.blank ∉ t)
    (h : ts.flatMap (Byte.blank :: ·) = ts'.flatMap (Byte.blank :: ·)) : ts = ts' := by
  have hsplit : ∀ us : List Text, (∀ t ∈ us, Byte.blank ∉ t) →
      (us.flatMap (Byte.blank :: ·)).splitOn Byte.blank = [] :: us := by
    intro us hus
    have hjoin := intercalate_blank [] us
    rw [List.nil_append] at hjoin
    rw [← hjoin]
    exact List.splitOn_intercalate _ (List.forall_mem_cons.mpr ⟨List.not_mem_nil, hus⟩)
      (List.cons_ne_nil _ _)
  have htail := hsplit ts hts
  rw [h, hsplit ts' hts'] at htail
  exact (List.cons.inj htail).2.symm

/-- The texts of the numbers `xs` are read off one after the other, since each follows a blank. -/
theorem Binary64.text_eq_of_flatMap {xs ys : List Binary64}
    (h : xs.flatMap (fun x => ascii " " ++ x.text) = ys.flatMap fun x => ascii " " ++ x.text) :
    xs.map text = ys.map text := by
  have hblank : ∀ zs : List Binary64, ∀ t ∈ zs.map text, Byte.blank ∉ t := by
    intro zs t ht
    obtain ⟨z, -, rfl⟩ := List.mem_map.mp ht
    exact z.blank_notMem_text
  apply Text.flatMap_blank_inj (hblank xs) (hblank ys)
  rw [List.flatMap_map, List.flatMap_map]
  exact h

/-! ## The action -/

namespace Action

/-- The words of all actions, in the order of the constructors. -/
def names : List Text :=
  ["draw line", "draw circle", "draw rectangle", "set color", "clear", "move", "pen up",
    "pen down"].map ascii

/-- The words of an action `a` are among `names`. -/
theorem name_mem_names (a : Action) : a.name ∈ names := by
  cases a <;> exact of_decide_eq_true rfl

/-- The words of an action `a` do not go on as those of another: no name is the start of another
name. -/
theorem name_eq_of_append {a b : Action} {t t' : Text} (h : a.name ++ t = b.name ++ t') :
    a.name = b.name := by
  have hfree : ∀ n ∈ names, ∀ n' ∈ names, n <+: n' → n = n' := by decide
  rcases List.prefix_or_prefix_of_prefix (List.prefix_append a.name t)
    (h ▸ List.prefix_append b.name t') with hprefix | hprefix
  · exact hfree _ a.name_mem_names _ b.name_mem_names hprefix
  · exact (hfree _ b.name_mem_names _ a.name_mem_names hprefix).symm

/-- Two actions look alike when they are of one kind, with the same name of a color, or with numbers
that are printed alike. -/
inductive LooksLike : Action → Action → Prop where
  | drawLine {x1 y1 x2 y2 x1' y1' x2' y2' : Binary64} : x1.text = x1'.text → y1.text = y1'.text →
      x2.text = x2'.text → y2.text = y2'.text →
      LooksLike (.drawLine x1 y1 x2 y2) (.drawLine x1' y1' x2' y2')
  | drawCircle {x y radius x' y' radius' : Binary64} : x.text = x'.text → y.text = y'.text →
      radius.text = radius'.text → LooksLike (.drawCircle x y radius) (.drawCircle x' y' radius')
  | drawRectangle {x y width height x' y' width' height' : Binary64} : x.text = x'.text →
      y.text = y'.text → width.text = width'.text → height.text = height'.text →
      LooksLike (.drawRectangle x y width height) (.drawRectangle x' y' width' height')
  | setColor (name : Text) : LooksLike (.setColor name) (.setColor name)
  | clear : LooksLike .clear .clear
  | move {x y x' y' : Binary64} : x.text = x'.text → y.text = y'.text →
      LooksLike (.move x y) (.move x' y')
  | penUp : LooksLike .penUp .penUp
  | penDown : LooksLike .penDown .penDown

/-- The words of an action `a` tell its kind: their place in `names` is that of its constructor. -/
theorem idxOf_name (a : Action) : names.idxOf a.name = a.ctorIdx := by
  cases a <;> rfl

variable {a b : Action}

/-- Actions `a` and `b` with the same words and operands look alike. -/
theorem looksLike_of_name (hname : a.name = b.name) (h : a.operandText = b.operandText) :
    a.LooksLike b := by
  -- Both actions are of one kind, so for each kind of `a` there is only the same kind of `b` to
  -- look at.
  have hkind : a.ctorIdx = b.ctorIdx := by rw [← idxOf_name, hname, idxOf_name]
  cases a with
  | drawLine x1 y1 x2 y2 =>
    cases b with
    | drawLine x1' y1' x2' y2' =>
      -- There is no blank in the text of a number, so the texts of the operands are found one by
      -- one.
      have htexts : [x1, y1, x2, y2].map Binary64.text = [x1', y1', x2', y2'].map Binary64.text :=
        Binary64.text_eq_of_flatMap h
      simp only [List.map_cons, List.cons.injEq] at htexts
      obtain ⟨hx1, hy1, hx2, hy2, -⟩ := htexts
      exact .drawLine hx1 hy1 hx2 hy2
    | _ => cases hkind
  | drawCircle x y radius =>
    cases b with
    | drawCircle x' y' radius' =>
      have htexts : [x, y, radius].map Binary64.text = [x', y', radius'].map Binary64.text :=
        Binary64.text_eq_of_flatMap h
      simp only [List.map_cons, List.cons.injEq] at htexts
      obtain ⟨hx, hy, hradius, -⟩ := htexts
      exact .drawCircle hx hy hradius
    | _ => cases hkind
  | drawRectangle x y width height =>
    cases b with
    | drawRectangle x' y' width' height' =>
      have htexts : [x, y, width, height].map Binary64.text =
          [x', y', width', height'].map Binary64.text := Binary64.text_eq_of_flatMap h
      simp only [List.map_cons, List.cons.injEq] at htexts
      obtain ⟨hx, hy, hwidth, hheight, -⟩ := htexts
      exact .drawRectangle hx hy hwidth hheight
    | _ => cases hkind
  | setColor name =>
    cases b with
    | setColor name' =>
      -- The name of a color is all that stands between the words and the last quote, whatever bytes
      -- it has.
      have hquoted : name ++ ascii "\"" = name' ++ ascii "\"" := by
        simp only [operandText, List.append_assoc] at h
        exact List.append_cancel_left h
      rw [List.append_cancel_right hquoted]
      exact .setColor name'
    | _ => cases hkind
  | move x y =>
    cases b with
    | move x' y' =>
      have htexts : [x, y].map Binary64.text = [x', y'].map Binary64.text :=
        Binary64.text_eq_of_flatMap h
      simp only [List.map_cons, List.cons.injEq] at htexts
      obtain ⟨hx, hy, -⟩ := htexts
      exact .move hx hy
    | _ => cases hkind
  | clear =>
    cases b with
    | clear => exact .clear
    | _ => cases hkind
  | penUp =>
    cases b with
    | penUp => exact .penUp
    | _ => cases hkind
  | penDown =>
    cases b with
    | penDown => exact .penDown
    | _ => cases hkind

/-- Actions that look alike have the same words and operands, so the description does not tell them
apart. -/
theorem LooksLike.text_eq (h : a.LooksLike b) :
    a.name ++ a.operandText = b.name ++ b.operandText := by
  cases h with
  | setColor name => rfl
  | clear | penUp | penDown => rfl
  | _ => simp only [name, operandText, numbers, List.flatMap_cons, *]

end Action

/-- Two descriptions are equal exactly if the commands look alike, which makes them of one kind, and
stand at the same place. -/
theorem Command.describe_eq_describe_iff (a b : Command) : a.describe = b.describe ↔
    a.action.LooksLike b.action ∧ a.position = b.position := by
  constructor
  · intro h
    obtain ⟨htext, hposition⟩ := Position.eq_of_describe h
    have hname := Action.name_eq_of_append htext
    rw [hname] at htext
    exact ⟨Action.looksLike_of_name hname (List.append_cancel_left htext), hposition⟩
  · rintro ⟨hlooks, hposition⟩
    rw [describe, describe, hlooks.text_eq, hposition]

end Sketch
