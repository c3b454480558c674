import Sketch.Proofs.Lockstep
import Sketch.Proofs.Unsigned
import Sketch.Surface.Svg

/-!
# Equal commands do the same

Commands are equal if their numbers are equal as numbers. The two zeros are equal then, and what is
not a number is equal to nothing, so a command need not be equal to itself. The commands of a
program are, since a literal always denotes a number.

`Session.equal_commands_agree` shows that equal commands have the same results and make the same
calls, from pens that are at equal places. Only the sign of a zero can differ between the two runs,
and the pen never shows it: sums and differences pass on at most the sign of a zero
(`Binary64.SameValue.add`), both zeros fall on one pixel (`Binary64.SameValue.pixelOf_eq`), and a
coordinate that is named in a fault is no zero. A sum that is not a number may come about on the
way, but then it has no pixel and does not reach the pen.
-/

namespace Sketch

namespace Binary64

/-- The two numbers are the same, or they are zeros of any sign. Unlike equality, this holds of a
NaN and itself. -/
inductive SameValue : Binary64 → Binary64 → Prop where
  | refl (x : Binary64) : SameValue x x
  | zeros (s t : Bool) : SameValue (signed s .zero) (signed t .zero)

variable {x x' y y' : Binary64}

/-- Numbers are `equal` exactly if they are the same but for the sign of a zero, and none of them is
a NaN. -/
theorem equal_iff : x.equal x' ↔ x.SameValue x' ∧ ¬ x.isNaN := by
  constructor
  · intro h
    match x, x' with
    | notNumber _, _ => cases h
    | signed _ _, notNumber _ => cases h
    | signed s m, signed t n =>
      simp only [equal, Bool.and_eq_true, beq_iff_eq, Bool.or_eq_true] at h
      obtain ⟨rfl, rfl | rfl⟩ := h
      · exact ⟨.refl _, nofun⟩
      · exact ⟨.zeros s t, nofun⟩
  · -- The values are the same, so one number or two zeros; a number equals itself unless it is no
    -- number.
    rintro ⟨_ | _, hnumber⟩
    · cases x with
      | notNumber negative => exact absurd rfl hnumber
      | signed s m => simp [equal]
    · simp [equal]

/-- A number `x` is equal to itself, unless it is a NaN. -/
theorem equal_self (h : ¬ x.isNaN) : x.equal x := equal_iff.mpr ⟨.refl x, h⟩

/-- A zero has no units, whatever its sign `s` is. -/
theorem units?_zero (s : Bool) : (signed s .zero).units? = some 0 := by
  cases s <;> rfl

namespace SameValue

/-- The opposites of numbers of the same value have the same value. -/
theorem neg (h : x.SameValue x') : x.neg.SameValue x'.neg := by
  cases h with
  | refl => exact .refl _
  | zeros s t => exact .zeros _ _

/-- The signs of zeros have no part in a sum, but for the sign of a sum that is zero. -/
theorem add (hx : x.SameValue x') (hy : y.SameValue y') :
    (x.add y).SameValue (x'.add y') := by
  cases hx with
  | refl =>
    cases hy with
    | refl => exact .refl _
    | zeros t t' =>
      -- The sum of a zero and a number is that number, or a zero.
      cases x with
      | notNumber negative => exact .refl _
      | signed s m =>
        simp only [Binary64.add, units?_zero]
        cases (signed s m).units? with
        | none => exact .refl _
        | some a =>
          simp only
          split
          · exact .zeros _ _
          · exact .refl _
  | zeros s s' =>
    cases hy with
    | refl =>
      cases y with
      | notNumber negative => exact .refl _
      | signed t n =>
        simp only [Binary64.add, units?_zero]
        cases (signed t n).units? with
        | none => exact .refl _
        | some b =>
          simp only
          split
          · exact .zeros _ _
          · exact .refl _
    | zeros t t' =>
      simp only [Binary64.add, units?_zero]
      exact .zeros _ _

/-- The signs of zeros have no part in a difference, but for the sign of one that is zero. -/
theorem sub (hx : x.SameValue x') (hy : y.SameValue y') : (x.sub y).SameValue (x'.sub y') :=
  hx.add hy.neg

/-- Both zeros fall on one pixel, so that a coordinate without a pixel is no zero and is reported as
it is. -/
theorem pixelOf_eq (h : x.SameValue x') : pixelOf x = pixelOf x' := by
  cases h with
  | refl => rfl
  | zeros s t =>
    have hpixel : ∀ s : Bool, pixelOf (signed s .zero) = .ok 0 := by decide +kernel
    rw [hpixel, hpixel]

/-- Numbers of the same value of which one has a pixel are equal, since a NaN has no pixel. -/
theorem equal_of_pixelOf (h : x.SameValue x') {p : Pixel} (hp : pixelOf x = .ok p) :
    x.equal x' := by
  refine equal_iff.mpr ⟨h, fun hnan => ?_⟩
  cases x with
  | notNumber negative => cases hp
  | signed s m => cases hnan

end SameValue

/-- Numbers that are `equal` have the same value. -/
theorem SameValue.of_equal (h : x.equal x') : x.SameValue x' := (equal_iff.mp h).1

end Binary64

/-- The pens `p` and `p'` are equal when their places are equal as numbers and all else is the same.
-/
structure Pen.Equal (p p' : Pen) : Prop where
  x : p.x.equal p'.x
  y : p.y.equal p'.y
  isDown : p.isDown = p'.isDown
  fills : p.fills = p'.fills
  color : p.color = p'.color
  strokeWidth : p.strokeWidth = p'.strokeWidth

namespace Pen

variable {p p' : Pen}

/-- The effects of equal actions on equal pens: the same coordinate has no pixel, or the same call
is made with the same outcome, and the pens are equal afterwards. -/
inductive ObeyedEqual : Except Fault Effect → Except Fault Effect → Prop where
  | fault (fault : Fault) : ObeyedEqual (.error fault) (.error fault)
  | effect (call : Option Call) {pen pen' : Pen} (outcome : Outcome) : pen.Equal pen' →
      ObeyedEqual (.ok ⟨call, pen, outcome⟩) (.ok ⟨call, pen', outcome⟩)

open Binary64

/-- Effects that need the pixel of coordinates `x` and `x'` of the same value first are equal if
they are for that pixel. -/
theorem ObeyedEqual.bind {x x' : Binary64} {next next' : Pixel → Except Fault Effect}
    (hx : x.SameValue x') (h : ∀ q, pixelOf x = .ok q → ObeyedEqual (next q) (next' q)) :
    ObeyedEqual (pixelOf x >>= next) (pixelOf x' >>= next') := by
  rw [← hx.pixelOf_eq]
  cases hpixel : pixelOf x with
  | error fault => exact .fault fault
  | ok q => exact h q hpixel

/-- The color inside shapes is that of the pen in both equal pens, or in none. -/
theorem Equal.fill (h : p.Equal p') : p.fill = p'.fill := by
  rw [Pen.fill, Pen.fill, h.fills, h.color]

/-- Both equal pens follow to equal places, or none does, as they are both down or both up. -/
theorem Equal.follow (h : p.Equal p') {x x' y y' : Binary64} (hx : x.equal x')
    (hy : y.equal y') : (p.follow x y).Equal (p'.follow x' y') := by
  unfold Pen.follow
  rw [h.isDown]
  split
  · exact ⟨hx, hy, rfl, h.fills, h.color, h.strokeWidth⟩
  · exact h

/-- Lines between equal points have equal effects on equal pens. -/
theorem drawLine_equal (h : p.Equal p') {x1 y1 x2 y2 x1' y1' x2' y2' : Binary64}
    (hx1 : x1.equal x1') (hy1 : y1.equal y1') (hx2 : x2.equal x2') (hy2 : y2.equal y2') :
    ObeyedEqual (p.drawLine x1 y1 x2 y2) (p'.drawLine x1' y1' x2' y2') := by
  refine .bind (.of_equal hx1) fun _ _ => .bind (.of_equal hy1) fun _ _ => ?_
  refine .bind (.of_equal hx2) fun _ _ => .bind (.of_equal hy2) fun _ _ => ?_
  rw [h.color, h.strokeWidth]
  exact .effect _ _ (h.follow hx2 hy2)

/-- Circles with equal centers and equal radii have equal effects on equal pens. Their ends are
sums, which agree in value. -/
theorem drawCircle_equal (h : p.Equal p') {x y radius x' y' radius' : Binary64}
    (hx : x.equal x') (hy : y.equal y') (hradius : radius.equal radius') :
    ObeyedEqual (p.drawCircle x y radius) (p'.drawCircle x' y' radius') := by
  have hx' := SameValue.of_equal hx
  have hy' := SameValue.of_equal hy
  have hradius' := SameValue.of_equal hradius
  refine .bind (hx'.sub hradius') fun _ _ => .bind (hy'.sub hradius') fun _ _ => ?_
  refine .bind (hx'.add hradius') fun _ _ => .bind (hy'.add hradius') fun _ _ => ?_
  refine .bind hx' fun _ _ => .bind hy' fun _ _ => .bind hradius' fun _ _ => ?_
  rw [h.color, h.fill, h.strokeWidth]
  exact .effect _ _ (h.follow hx hy)

/-- Rectangles with equal corners and equal sizes have equal effects on equal pens. Their far
corners are sums, which agree in value. -/
theorem drawRectangle_equal (h : p.Equal p') {x y width height x' y' width' height' : Binary64}
    (hx : x.equal x') (hy : y.equal y') (hwidth : width.equal width')
    (hheight : height.equal height') :
    ObeyedEqual (p.drawRectangle x y width height) (p'.drawRectangle x' y' width' height') := by
  have hright := (SameValue.of_equal hx).add (.of_equal hwidth)
  have hbottom := (SameValue.of_equal hy).add (.of_equal hheight)
  refine .bind (.of_equal hx) fun _ _ => .bind (.of_equal hy) fun _ _ => ?_
  -- The corner that the pen follows to is a number because it has a pixel.
  refine .bind hright fun _ hpixel => .bind hbottom fun _ hpixel' => ?_
  refine .bind (.of_equal hwidth) fun _ _ => .bind (.of_equal hheight) fun _ _ => ?_
  rw [h.color, h.fill, h.strokeWidth]
  exact .effect _ _ (h.follow (hright.equal_of_pixelOf hpixel) (hbottom.equal_of_pixelOf hpixel'))

/-- Moves to equal points have equal effects on equal pens, from which their lines start. -/
theorem move_equal (h : p.Equal p') {x y x' y' : Binary64} (hx : x.equal x')
    (hy : y.equal y') : ObeyedEqual (p.move x y) (p'.move x' y') := by
  refine .bind (.of_equal hx) fun _ _ => .bind (.of_equal hy) fun _ _ => ?_
  show ObeyedEqual (if p.isDown then _ else _) (if p'.isDown then _ else _)
  rw [h.isDown]
  split
  · refine .bind (.of_equal h.x) fun _ _ => .bind (.of_equal h.y) fun _ _ => ?_
    rw [h.color, h.strokeWidth]
    exact .effect _ _ ⟨hx, hy, rfl, h.fills, rfl, rfl⟩
  · exact .effect _ _ ⟨hx, hy, rfl, h.fills, h.color, h.strokeWidth⟩

/-- Actions that are equal (`Action.equal`) have equal effects on equal pens. -/
theorem obey_equal (h : p.Equal p') {a a' : Action} (ha : a.equal a') :
    ObeyedEqual (p.obey a) (p'.obey a') := by
  unfold Action.equal at ha
  split at ha
  · -- One case for each pair of actions of one kind, and at the end the pairs that are never
    -- equal.
    simp only [Bool.and_eq_true, and_assoc] at ha
    obtain ⟨hx1, hy1, hx2, hy2⟩ := ha
    exact drawLine_equal h hx1 hy1 hx2 hy2
  · simp only [Bool.and_eq_true, and_assoc] at ha
    obtain ⟨hx, hy, hradius⟩ := ha
    exact drawCircle_equal h hx hy hradius
  · simp only [Bool.and_eq_true, and_assoc] at ha
    obtain ⟨hx, hy, hwidth, hheight⟩ := ha
    exact drawRectangle_equal h hx hy hwidth hheight
  · obtain rfl := eq_of_beq ha
    exact .effect _ _ ⟨h.x, h.y, h.isDown, h.fills, rfl, h.strokeWidth⟩
  · obtain ⟨hx, hy⟩ := Bool.and_eq_true_iff.mp ha
    exact move_equal h hx hy
  · exact .effect _ _ h
  · exact .effect _ _ ⟨h.x, h.y, rfl, h.fills, h.color, h.strokeWidth⟩
  · exact .effect _ _ ⟨h.x, h.y, rfl, h.fills, h.color, h.strokeWidth⟩
  · cases ha

end Pen

namespace Session

variable {σ τ : Type} [Surface σ] [Surface τ] {R : σ → τ → Prop} {s : Session σ} {t : Session τ}

/-- The pens of the sessions `s` and `t` are equal, and their surfaces are related by `R`. -/
structure Equal (R : σ → τ → Prop) (s : Session σ) (t : Session τ) : Prop where
  pen : s.pen.Equal t.pen
  surface : R s.surface t.surface

/-- Effects `x` and `y` that are equal take place in both sessions, or in none, and have the same
result. -/
theorem settle_equal (hR : Lockstep R) (h : Equal R s t) {x y : Except Fault Effect}
    (hxy : Pen.ObeyedEqual x y) :
    (s.settle x).1 = (t.settle y).1 ∧ Equal R (s.settle x).2 (t.settle y).2 := by
  cases hxy with
  | fault fault => exact ⟨rfl, h⟩
  | effect call outcome hpen =>
    cases call with
    | none => exact ⟨rfl, hpen, h.surface⟩
    | some call =>
      -- The two surfaces either both take the call or both refuse it, with one message.
      have hdraw := hR _ _ call h.surface
      simp only [settle]
      generalize Surface.draw s.surface call = drawn at hdraw ⊢
      generalize Surface.draw t.surface call = drawn' at hdraw ⊢
      cases hdraw with
      | taken hsurface => exact ⟨rfl, hpen, hsurface⟩
      | refused message => exact ⟨rfl, h⟩

/-- Commands that are equal one by one (`hcommands`) have the same results in equal sessions, which
stay equal. -/
theorem executeAll_equal (hR : Lockstep R) (h : Equal R s t) {cs ds : List Command}
    (hcommands : List.Forall₂ (fun c d => c.equal d) cs ds) :
    (s.executeAll cs).1 = (t.executeAll ds).1 ∧
      Equal R (s.executeAll cs).2 (t.executeAll ds).2 := by
  induction hcommands generalizing s t with
  | nil => exact ⟨rfl, h⟩
  | @cons c d cs ds hcommand _ ih =>
    obtain ⟨haction, -⟩ := Bool.and_eq_true_iff.mp hcommand
    obtain ⟨hresult, hsession⟩ := settle_equal hR h (Pen.obey_equal h.pen haction)
    obtain ⟨hresults, hlast⟩ := ih hsession
    rw [executeAll_cons, executeAll_cons]
    exact ⟨congrArg₂ List.cons hresult hresults, hlast⟩

end Session

/-! ## Surfaces with equal contents -/

/-- The recordings `r` and `r'` hold the same calls and refuse the same calls. Their sizes may
differ. -/
structure Recording.SameContent (r r' : Recording) : Prop where
  calls : r.calls = r'.calls
  refusal : r.refusal = r'.refusal

/-- Recordings of the same content take the same calls and keep the same content. -/
theorem Recording.lockstep_sameContent : Lockstep Recording.SameContent := by
  intro r r' call h
  show DrawnAlike _ (r.record call) (r'.record call)
  rw [record, record, refusal?, refusal?, h.refusal]
  split
  · exact .refused _
  · exact .taken ⟨congrArg (· ++ [call]) h.calls, rfl⟩

/-- The pictures `p` and `p'` have the same elements. Their sizes and backgrounds may differ. -/
structure SvgPicture.SameContent (p p' : SvgPicture) : Prop where
  elements : p.elements = p'.elements

/-- Pictures of the same content take all calls and keep the same content. -/
theorem SvgPicture.lockstep_sameContent : Lockstep SvgPicture.SameContent := by
  intro p p' call h
  refine .taken ⟨?_⟩
  simp only [apply]
  split
  · exact congrArg (· ++ _) h.elements
  · rfl

/-! ## Commands that are equal to themselves -/

/-- A command `c` is equal to itself if none of its numbers is a NaN. -/
theorem Command.equal_self {c : Command} (h : ∀ x ∈ c.action.numbers, ¬ x.isNaN) : c.equal c := by
  have haction : c.action.equal c.action := by
    cases haction : c.action <;>
      simp_all [Action.equal, Action.numbers, Binary64.equal_self]
  rw [equal, haction, beq_self_eq_true, Bool.and_true]

namespace Session

/-- Equal commands do the same.

Two sessions have equal pens, and their recordings hold the same calls and are armed alike. Then
commands that are equal one by one are reported the same, with the same results and as many of them
failed. The recordings hold the same calls again and the pens are equal again. The same holds of
sessions whose pictures have the same elements. The commands that are read from tokens are equal to
themselves, since all of their numbers are numbers. -/
theorem equal_commands_agree :
    (∀ {s t : Session Recording} {cs ds : List Command}, s.pen.Equal t.pen →
      s.surface.SameContent t.surface → List.Forall₂ (fun c d => c.equal d) cs ds →
      let x := s.runCommands cs
      let y := t.runCommands ds
      x.1 = y.1 ∧ x.2.surface.SameContent y.2.surface ∧ x.2.pen.Equal y.2.pen) ∧
    (∀ {s t : Session SvgPicture} {cs ds : List Command}, s.pen.Equal t.pen →
      s.surface.SameContent t.surface → List.Forall₂ (fun c d => c.equal d) cs ds →
      let x := s.runCommands cs
      let y := t.runCommands ds
      x.1 = y.1 ∧ x.2.surface.SameContent y.2.surface ∧ x.2.pen.Equal y.2.pen) ∧
    ∀ ts cs, Program.ofTokens ts = .ok cs →
      ∀ c ∈ cs, c.equal c ∧ ∀ x ∈ c.action.numbers, ¬ x.isNaN := by
  refine ⟨fun hpen hsurface hcommands => ?_, fun hpen hsurface hcommands => ?_, ?_⟩
  · -- Both kinds of surface run in lockstep, each with its own relation of equal content.
    obtain ⟨hresults, hlast⟩ :=
      executeAll_equal Recording.lockstep_sameContent ⟨hpen, hsurface⟩ hcommands
    exact ⟨congrArg Report.ran hresults, hlast.surface, hlast.pen⟩
  · obtain ⟨hresults, hlast⟩ :=
      executeAll_equal SvgPicture.lockstep_sameContent ⟨hpen, hsurface⟩ hcommands
    exact ⟨congrArg Report.ran hresults, hlast.surface, hlast.pen⟩
  · intro ts cs h c hc
    have hnumbers : ∀ x ∈ c.action.numbers, ¬ x.isNaN :=
      fun x hx => (Program.unsigned_of_ofTokens h c hc x hx).1
    exact ⟨Command.equal_self hnumbers, hnumbers⟩

/-- A circle, a rectangle, and two moves of which the first goes too far, with zeros of the given
sign. -/
def aroundZero (negative : Bool) : List Command :=
  let zero : Binary64 := .signed negative .zero
  [⟨.drawCircle zero (.ofInt 3) zero, ⟨1, 0⟩⟩, ⟨.drawRectangle zero zero (.ofInt 1) zero, ⟨2, 0⟩⟩,
    ⟨.move (.ofInt 99999999999) zero, ⟨3, 0⟩⟩, ⟨.move zero zero, ⟨4, 0⟩⟩]

/-- A pen at a zero of the given sign. -/
def penAtZero (negative : Bool) : Pen :=
  ⟨.signed negative .zero, .ofInt 7, true, true, .black, 2⟩

/-- The commands are reported the same, although the pens end at zeros of different sign. -/
theorem equal_commands_agree_around_zero :
    let jam : Option (CallKind × Text) := some (.rectangle, ascii "jam")
    let s : Session Recording := ⟨penAtZero false, 800, 600, [], jam⟩
    let t : Session Recording := ⟨penAtZero true, 640, 480, [], jam⟩
    let p : Session SvgPicture := ⟨penAtZero false, 800, 600, .black, []⟩
    let q : Session SvgPicture := ⟨penAtZero true, 640, 480, .black, []⟩
    let token : Token := ⟨.keyword, ascii "clear", ⟨1, 0⟩⟩
    (penAtZero false).Equal (penAtZero true) ∧
      List.Forall₂ (fun c d => c.equal d) (aroundZero false) (aroundZero true) ∧
      s.surface.SameContent t.surface ∧
      (s.runCommands (aroundZero false)).1 = (t.runCommands (aroundZero true)).1 ∧
      (s.runCommands (aroundZero false)).1.failedCommands = 2 ∧
      (s.runCommands (aroundZero false)).2.surface.SameContent
        (t.runCommands (aroundZero true)).2.surface ∧
      (s.runCommands (aroundZero false)).2.pen.Equal (t.runCommands (aroundZero true)).2.pen ∧
      (s.runCommands (aroundZero false)).2.pen ≠ (t.runCommands (aroundZero true)).2.pen ∧
      p.surface.SameContent q.surface ∧
      (p.runCommands (aroundZero false)).2.surface.SameContent
        (q.runCommands (aroundZero true)).2.surface ∧
      Program.ofTokens [token] = .ok [⟨.clear, ⟨1, 0⟩⟩] ∧
      Command.equal ⟨.clear, ⟨1, 0⟩⟩ ⟨.clear, ⟨1, 0⟩⟩ := by
  intro jam s t p q token
  have hpen : (penAtZero false).Equal (penAtZero true) := by
    constructor <;> decide +kernel
  have hcommands : List.Forall₂ (fun c d => Command.equal c d) (aroundZero false)
      (aroundZero true) := by
    refine .cons ?_ (.cons ?_ (.cons ?_ (.cons ?_ .nil))) <;> decide +kernel
  have hrecordings : s.surface.SameContent t.surface := ⟨rfl, rfl⟩
  have hpictures : p.surface.SameContent q.surface := ⟨rfl⟩
  have hread : Program.ofTokens [token] = .ok [⟨.clear, ⟨1, 0⟩⟩] := by decide +kernel
  -- The fourth conjunct and the eighth show what equality leaves open: the reports are one, the
  -- pens are not.
  obtain ⟨hreport, hsurface, hlast⟩ := equal_commands_agree.1 hpen hrecordings hcommands
  obtain ⟨-, hpicture, -⟩ := equal_commands_agree.2.1 hpen hpictures hcommands
  obtain ⟨hself, -⟩ := equal_commands_agree.2.2 _ _ hread _ List.mem_cons_self
  exact ⟨hpen, hcommands, hrecordings, hreport, by decide +kernel, hsurface, hlast,
    by decide +kernel, hpictures, hpicture, hread, hself⟩

end Session

end Sketch
