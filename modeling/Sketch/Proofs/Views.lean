import Mathlib.Algebra.Group.Int.Defs
import Mathlib.Algebra.Group.Nat.Defs
import Mathlib.Data.List.DropRight
import Sketch.Proofs.Lockstep
import Sketch.Surface.Svg

/-!
# A recording and a picture are two views of a session

`Session.recording_and_picture_agree` shows that it makes no difference to a session whether its
calls are recorded or drawn, and that the picture is found from the recording: its elements are the
calls after the last one that wiped the surface, rendered one by one.

`Call.rendering?` renders a call by exact arithmetic on the corners of its box, and `documentOf`
lists the lines of a document. `SvgElement.text_ofCall?` compares the elements of a picture with
that: the only overflow that matters is that of the sums and differences for an ellipse. The
relation that a session carries along is `Shows`, which every call keeps (`lockstep_shows`).
-/

namespace Sketch

/-! ## How a call is rendered -/

/-- The integer that 32 bits hold of an integer `z`, which is `z` modulo `2^32` around zero. -/
def word (z : Int) : Int := z.bmod (2 ^ 32)

/-- The integer `z` fits into 32 bits, so that `word z` is `z`. -/
def IsWord32 (z : Int) : Prop := -2 ^ 31 ≤ z ∧ z < 2 ^ 31

instance (z : Int) : Decidable (IsWord32 z) := inferInstanceAs (Decidable (_ ∧ _))

/-- An integer `z` that fits into 32 bits is held as it is. -/
theorem word_eq_self {z : Int} (h : IsWord32 z) : word z = z :=
  Int.bmod_eq_of_le (by have := h.1; omega) (by have := h.2; omega)

/-- A 32-bit integer `n` fits into 32 bits. -/
theorem isWord32_toInt (n : Int32) : IsWord32 n.toInt := ⟨n.le_toInt, n.toInt_lt⟩

/-- The size of a 32-bit integer `n` is held as a word again, which only `2^31` does not fit into.
-/
theorem toInt_abs (n : Int32) : n.abs.toInt = word n.toInt.natAbs := by
  have hbits : n.abs.toInt = n.toBitVec.abs.toInt := rfl
  have hint : n.toBitVec.toInt = n.toInt := rfl
  rw [hbits, BitVec.abs_eq, BitVec.msb_eq_toInt, hint]
  split
  case isTrue hneg =>
    have habs : -n.toInt = n.toInt.natAbs := by
      simp only [decide_eq_true_eq] at hneg
      omega
    rw [BitVec.toInt_neg, hint, habs]
    rfl
  case isFalse hneg =>
    have habs : (n.toInt.natAbs : Int) = n.toInt := by
      simp only [decide_eq_true_eq] at hneg
      omega
    rw [habs, word_eq_self (isWord32_toInt n), hint]

/-- The attributes `as` of an element as a text, each after a blank and with its value between
quotes. -/
def attributes (as : List (String × Text)) : Text :=
  as.flatMap fun a => ascii " " ++ ascii a.1 ++ ascii "=\"" ++ a.2 ++ ascii "\""

/-- The text of an element with a `name`, the attributes `as`, and nothing inside. -/
def markup (name : String) (as : List (String × Text)) : Text :=
  ascii "<" ++ ascii name ++ attributes as ++ ascii "/>"

namespace Call

/-- How a call is written in a document; wiping the surface is not. An ellipse is given by the
middles and half the extents of its box, a rectangle by its least corner and its extents. An extent
is a word, so one of `2^31` is written as a negative number. -/
def rendering? : Call → Option Text
  | line b stroke strokeWidth =>
    some (markup "line" [("x1", .ofInt b.x1.toInt), ("y1", .ofInt b.y1.toInt),
      ("x2", .ofInt b.x2.toInt), ("y2", .ofInt b.y2.toInt), ("stroke", stroke.hex),
      ("stroke-width", .ofInt strokeWidth.toInt), ("stroke-linecap", ascii "round")])
  | ellipse b outline fill strokeWidth =>
    some (markup "ellipse" [("cx", (Binary64.ofHalves (b.x1.toInt + b.x2.toInt)).text),
      ("cy", (Binary64.ofHalves (b.y1.toInt + b.y2.toInt)).text),
      ("rx", (Binary64.ofHalves (word (b.x2.toInt - b.x1.toInt).natAbs)).text),
      ("ry", (Binary64.ofHalves (word (b.y2.toInt - b.y1.toInt).natAbs)).text),
      ("stroke", outline.hex), ("stroke-width", .ofInt strokeWidth.toInt),
      ("fill", (fill.map Color.hex).getD (ascii "none"))])
  | rectangle b outline fill strokeWidth =>
    some (markup "rect" [("x", .ofInt (min b.x1.toInt b.x2.toInt)),
      ("y", .ofInt (min b.y1.toInt b.y2.toInt)),
      ("width", .ofInt (word (word (b.x2.toInt - b.x1.toInt)).natAbs)),
      ("height", .ofInt (word (word (b.y2.toInt - b.y1.toInt)).natAbs)),
      ("stroke", outline.hex), ("stroke-width", .ofInt strokeWidth.toInt),
      ("fill", (fill.map Color.hex).getD (ascii "none"))])
  | clear => none

/-- The sums and the differences of the corners fit into 32 bits if the call is for an ellipse.
Other calls are in range. -/
def InRange : Call → Prop
  | ellipse b _ _ _ =>
    IsWord32 (b.x1.toInt + b.x2.toInt) ∧ IsWord32 (b.y1.toInt + b.y2.toInt) ∧
      IsWord32 (b.x2.toInt - b.x1.toInt) ∧ IsWord32 (b.y2.toInt - b.y1.toInt)
  | line .. | rectangle .. | clear => True

instance : DecidablePred InRange
  | ellipse .. => inferInstanceAs (Decidable (_ ∧ _ ∧ _ ∧ _))
  | line .. | rectangle .. | clear => .isTrue trivial

end Call

namespace SvgElement

/-- The `extent` of a side is the size of the difference of its ends, both held in 32 bits. -/
theorem toInt_extent (a b : Pixel) :
    (extent a b).toInt = word (word (b.toInt - a.toInt)).natAbs := by
  rw [extent, toInt_abs, Int32.toInt_sub]
  rfl

/-- The `middle` of two coordinates whose sum fits into 32 bits is half of that sum. -/
theorem middle_eq {a b : Pixel} (h : IsWord32 (a.toInt + b.toInt)) :
    middle a b = .ofHalves (a.toInt + b.toInt) := by
  rw [middle, Int32.toInt_add]
  exact congrArg Binary64.ofHalves (word_eq_self h)

/-- The lesser of two pixels `a` and `b`, as a picture finds it, is the lesser of the integers that
they hold. -/
theorem toInt_least (a b : Pixel) : (if b < a then b else a).toInt = min a.toInt b.toInt := by
  split
  · have hlt := Int32.lt_iff_toInt_lt.mp ‹b < a›
    omega
  · have hle := mt Int32.lt_iff_toInt_lt.mpr ‹¬ b < a›
    omega

/-- The name of an element in a document, by its constructor. -/
def name : SvgElement → String
  | line .. => "line"
  | ellipse .. => "ellipse"
  | rect .. => "rect"

/-- The attributes of an element in a document, in order, with their values as texts. -/
def fields : SvgElement → List (String × Text)
  | line x1 y1 x2 y2 stroke strokeWidth =>
    [("x1", .ofInt x1.toInt), ("y1", .ofInt y1.toInt), ("x2", .ofInt x2.toInt),
      ("y2", .ofInt y2.toInt), ("stroke", stroke.hex), ("stroke-width", .ofInt strokeWidth.toInt),
      ("stroke-linecap", ascii "round")]
  | ellipse cx cy rx ry outline fill strokeWidth =>
    [("cx", cx.text), ("cy", cy.text), ("rx", rx.text), ("ry", ry.text), ("stroke", outline.hex),
      ("stroke-width", .ofInt strokeWidth.toInt),
      ("fill", (fill.map Color.hex).getD (ascii "none"))]
  | rect x y width height outline fill strokeWidth =>
    [("x", .ofInt x.toInt), ("y", .ofInt y.toInt), ("width", .ofInt width.toInt),
      ("height", .ofInt height.toInt), ("stroke", outline.hex),
      ("stroke-width", .ofInt strokeWidth.toInt),
      ("fill", (fill.map Color.hex).getD (ascii "none"))]

/-- The text of an element `e` is the `markup` of its `name` and its `fields`. -/
theorem text_eq_markup (e : SvgElement) : e.text = markup e.name e.fields := by
  have hline : ascii "<line" = ascii "<" ++ ascii "line" := by decide
  have hellipse : ascii "<ellipse" = ascii "<" ++ ascii "ellipse" := by decide
  have hrect : ascii "<rect" = ascii "<" ++ ascii "rect" := by decide
  cases e with
  | line | ellipse | rect =>
    simp only [text, name, fields, markup, attributes, integer, attr, fillAttribute, hline,
      hellipse, hrect, List.flatMap_cons, List.flatMap_nil, List.append_assoc, List.append_nil]

/-- The element of a `call` in range is written as the `rendering?` of the call, which does not wrap
around. -/
theorem text_ofCall? {call : Call} (h : call.InRange) :
    (ofCall? call).map text = call.rendering? := by
  cases call with
  | clear => rfl
  | line b stroke strokeWidth => exact congrArg some (text_eq_markup _)
  | ellipse b outline fill strokeWidth =>
    obtain ⟨hx, hy, hwidth, hheight⟩ := h
    simp only [ofCall?, Option.map_some, text_eq_markup, name, fields, Call.rendering?,
      middle_eq hx, middle_eq hy, toInt_extent, word_eq_self hwidth, word_eq_self hheight]
  | rectangle b outline fill strokeWidth =>
    simp only [ofCall?, Option.map_some, text_eq_markup, name, fields, Call.rendering?,
      toInt_extent, toInt_least]

end SvgElement

/-! ## The document of some elements -/

/-- The document of the given `elements` on a canvas with the settings `c`, line by line. -/
def documentOf (c : CanvasConfig) (elements : List Text) : Text :=
  let width := Text.ofInt c.width.toInt
  let height := Text.ofInt c.height.toInt
  let header := [ascii "<?xml version=\"1.0\" encoding=\"UTF-8\"?>",
    ascii "<svg" ++ attributes [("xmlns", ascii "http://www.w3.org/2000/svg"), ("width", width),
      ("height", height), ("viewBox", ascii "0 0 " ++ width ++ ascii " " ++ height)] ++ ascii ">",
    ascii "  " ++ markup "rect" [("width", ascii "100%"), ("height", ascii "100%"),
      ("fill", (Color.ofName c.background).hex)]]
  (header ++ elements.map (ascii "  " ++ ·) ++ [ascii "</svg>"]).flatMap (· ++ [Byte.newline])

/-- The picture of the given `elements` on a canvas with the settings `c`. -/
def SvgPicture.onCanvas (c : CanvasConfig) (elements : List SvgElement) : SvgPicture :=
  ⟨c.width, c.height, .ofName c.background, elements⟩

/-- The document of a picture is `documentOf` the texts of its elements. -/
theorem SvgPicture.document_onCanvas (c : CanvasConfig) (elements : List SvgElement) :
    (onCanvas c elements).document = documentOf c (elements.map SvgElement.text) := by
  have hsvg : ascii "<svg xmlns=\"http://www.w3.org/2000/svg\"" =
      ascii "<svg" ++ (ascii " " ++ (ascii "xmlns" ++ (ascii "=\"" ++
        (ascii "http://www.w3.org/2000/svg" ++ ascii "\"")))) := by
    decide
  have hrect : ascii "  <rect width=\"100%\" height=\"100%\"" =
      ascii "  " ++ (ascii "<" ++ (ascii "rect" ++ (ascii " " ++ (ascii "width" ++ (ascii "=\"" ++
        (ascii "100%" ++ (ascii "\"" ++ (ascii " " ++ (ascii "height" ++ (ascii "=\"" ++
          (ascii "100%" ++ ascii "\""))))))))))) := by
    decide
  simp only [document, documentOf, header, onCanvas, SvgElement.attr, markup, attributes, hsvg,
    hrect, List.flatMap_cons, List.flatMap_nil, List.map_map, List.append_assoc, List.append_nil]
  rfl

/-! ## The calls that a picture shows -/

/-- The calls of the list after the last one that wipes the surface, which are all if none does. -/
def sinceClear (calls : List Call) : List Call := calls.rtakeWhile (· ≠ .clear)

/-- Nothing is left of `calls` after wiping the surface. -/
theorem sinceClear_append_clear (calls : List Call) : sinceClear (calls ++ [.clear]) = [] :=
  List.rtakeWhile_concat_neg _ _ _ (by simp)

/-- A `call` other than one that wipes the surface is left as the last one. -/
theorem sinceClear_append {call : Call} (h : call ≠ .clear) (calls : List Call) :
    sinceClear (calls ++ [call]) = sinceClear calls ++ [call] :=
  List.rtakeWhile_concat_pos _ _ _ (by simpa using h)

/-- The picture `p` shows what the recording `r` has recorded, on a canvas with the settings `c`. -/
structure Shows (c : CanvasConfig) (r : Recording) (p : SvgPicture) : Prop where
  /-- The recording refuses nothing. -/
  unarmed : r.refusal = none
  /-- The picture has the elements of the calls since the surface was wiped. -/
  picture : p = .onCanvas c ((sinceClear r.calls).filterMap SvgElement.ofCall?)

/-- A picture goes on to show what a recording records, call by call: `Shows c` is a `Lockstep`
relation. -/
theorem lockstep_shows (c : CanvasConfig) : Lockstep (Shows c) := by
  intro r p call h
  have hrecord : Surface.draw r call = .ok { r with calls := r.calls ++ [call] } := by
    simp [Surface.draw, Recording.record, Recording.refusal?, h.unarmed]
  have hdraw : Surface.draw p call = .ok (p.apply call) := rfl
  rw [hrecord, hdraw, h.picture]
  refine .taken ⟨h.unarmed, ?_⟩
  -- Wiping takes away all elements, and every other call adds one.
  by_cases hclear : call = .clear
  · subst hclear
    rw [sinceClear_append_clear]
    rfl
  · obtain ⟨element, helement⟩ : ∃ element, SvgElement.ofCall? call = some element := by
      cases call with
      | clear => exact absurd rfl hclear
      | line | ellipse | rectangle => exact ⟨_, rfl⟩
    rw [sinceClear_append hclear, List.filterMap_append]
    simp [SvgPicture.apply, SvgPicture.onCanvas, helement]

/-- The last that comes of the request is that the surface is wiped, by a call, by a command or by a
program. -/
inductive Request.EndsInClear : Request → Prop
  | draw : EndsInClear (.draw .clear)
  | runCommands (cs : List Command) (place : Position) :
      EndsInClear (.runCommands (cs ++ [⟨.clear, place⟩]))
  | run {source : Text} {cs : List Command} {place : Position} :
      Program.read false source = .ok (cs ++ [⟨.clear, place⟩]) → EndsInClear (.run source)

namespace Session

variable {c : CanvasConfig} {s : Session Recording} {t : Session SvgPicture}

/-- A picture that shows a recording is fresh again after commands the last of which wipes it. -/
theorem surface_executeAll_clear (h : Alike (Shows c) s t) (cs : List Command) (place : Position) :
    (t.executeAll (cs ++ [⟨.clear, place⟩])).2.surface = .onCanvas c [] := by
  have hlast := (executeAll_inLockstep (lockstep_shows c) h cs).session.surface.picture
  have hwiped : (t.executeAll (cs ++ [⟨.clear, place⟩])).2.surface =
      { (t.executeAll cs).2.surface with elements := [] } := by
    rw [executeAll_append]
    rfl
  rw [hwiped, hlast]
  rfl

/-- A picture that shows a recording is fresh again after a `request` that ends in wiping it. -/
theorem surface_ask_of_endsInClear (h : Alike (Shows c) s t) {request : Request}
    (hclear : request.EndsInClear) : (t.ask request).2.surface = .onCanvas c [] := by
  cases hclear with
  | draw =>
    have hwiped : (t.ask (.draw .clear)).2.surface = { t.surface with elements := [] } := rfl
    rw [hwiped, h.surface.picture]
    rfl
  | runCommands cs place => exact surface_executeAll_clear h cs place
  | run hread =>
    have hlast := (run_of_read hread t).2
    rw [ask, hlast]
    exact surface_executeAll_clear h _ _

/-- A recording that refuses nothing and a picture, both with the same settings, are two views of
the same session. Its requests are answered alike and the pen is the same after each of them. If no
sum or difference for an ellipse overflows, the elements of the picture render the calls after the
last one that wiped the surface, in order, and the document is the header, these elements, and the
footer. After a request that ends in wiping the surface it is the document of a fresh picture. -/
theorem recording_and_picture_agree (h : c.problem? = none) :
    ∃ r p, Recording.ofConfig c = .ok r ∧ SvgPicture.ofConfig c = .ok p ∧
      p.document = documentOf c [] ∧
      ∀ requests,
        let recorded := (start r c).askAll requests
        let drawn := (start p c).askAll requests
        let calls := recorded.2.surface.calls
        recorded.1 = drawn.1 ∧ recorded.2.pen = drawn.2.pen ∧
        ((∀ call ∈ calls, call.InRange) →
          drawn.2.surface.elements.map SvgElement.text =
              (sinceClear calls).filterMap Call.rendering? ∧
            drawn.2.surface.document =
              documentOf c ((sinceClear calls).filterMap Call.rendering?)) ∧
        ∀ request, request.EndsInClear → (drawn.2.ask request).2.surface.document = p.document := by
  have hrecording : Recording.ofConfig c = .ok ⟨c.width, c.height, [], none⟩ := by
    rw [Recording.ofConfig, CanvasConfig.guarded, h]
  have hpicture : SvgPicture.ofConfig c = .ok (.onCanvas c []) := by
    rw [SvgPicture.ofConfig, CanvasConfig.guarded, h]
    rfl
  refine ⟨_, _, hrecording, hpicture, SvgPicture.document_onCanvas c [], ?_⟩
  intro requests recorded drawn calls
  have hstart : Alike (Shows c) (start (⟨c.width, c.height, [], none⟩ : Recording) c)
      (start (SvgPicture.onCanvas c []) c) := ⟨rfl, rfl, rfl⟩
  -- The fresh recording and the fresh picture are in lockstep, and so are the two after any
  -- requests.
  obtain ⟨hanswers, hlast⟩ := askAll_inLockstep (lockstep_shows c) hstart requests
  refine ⟨hanswers, hlast.pen, ?_, ?_⟩
  · intro hrange
    have hpicture := hlast.surface.picture
    have htexts : ((sinceClear calls).filterMap SvgElement.ofCall?).map SvgElement.text =
        (sinceClear calls).filterMap Call.rendering? := by
      rw [List.map_filterMap]
      refine List.filterMap_congr fun call hcall => SvgElement.text_ofCall? (hrange call ?_)
      exact (List.rtakeWhile_suffix _ _).mem hcall
    constructor
    · rw [← htexts]
      exact congrArg (fun p => p.elements.map SvgElement.text) hpicture
    · rw [← htexts, ← SvgPicture.document_onCanvas]
      exact congrArg SvgPicture.document hpicture
  · intro request hclear
    rw [surface_ask_of_endsInClear hlast hclear]

/-- A session on the default canvas. A line is wiped with the surface, a circle is drawn after it,
and then a rectangle past the pen, which fills shapes by then. -/
def circleAndRectangle : List Request :=
  [.run (ascii "draw line 1 1 2 2\nclear\ndraw circle 10 20 5"), .setFill true,
    .draw (.rectangle ⟨7, 8, 3, 5⟩ .black none 1)]

/-- The picture of that session has an ellipse and a rectangle, and wiped it is a fresh picture. -/
theorem circle_and_rectangle_agree :
    let c : CanvasConfig := {}
    c.problem? = none ∧ ∃ r p, Recording.ofConfig c = .ok r ∧ SvgPicture.ofConfig c = .ok p ∧
      let recorded := (start r c).askAll circleAndRectangle
      let drawn := (start p c).askAll circleAndRectangle
      recorded.1 = drawn.1 ∧ (∀ call ∈ recorded.2.surface.calls, call.InRange) ∧
        drawn.2.surface.elements.map SvgElement.text = [
          ascii ("<ellipse cx=\"10\" cy=\"20\" rx=\"5\" ry=\"5\" stroke=\"#000000\"" ++
            " stroke-width=\"2\" fill=\"none\"/>"),
          ascii ("<rect x=\"3\" y=\"5\" width=\"4\" height=\"3\" stroke=\"#000000\"" ++
            " stroke-width=\"1\" fill=\"none\"/>")] ∧
        Request.EndsInClear (.draw .clear) ∧
        (drawn.2.ask (.draw .clear)).2.surface.document = p.document := by
  intro c
  have hproblem : c.problem? = none := by decide
  obtain ⟨r, p, hr, hp, -, hviews⟩ := recording_and_picture_agree hproblem
  obtain ⟨hanswers, -, htexts, hwiped⟩ := hviews circleAndRectangle
  obtain rfl : ⟨800, 600, [], none⟩ = r := Except.ok.inj hr
  have hrange : ∀ call ∈ ((start (⟨800, 600, [], none⟩ : Recording) c).askAll
      circleAndRectangle).2.surface.calls, call.InRange := by
    decide +kernel
  refine ⟨hproblem, _, p, hr, hp, hanswers, hrange, (htexts hrange).1.trans ?_, .draw,
    hwiped _ .draw⟩
  decide +kernel

end Session

end Sketch
