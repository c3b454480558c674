import Sketch.Proofs.Printing
import Sketch.Proofs.Views

/-!
# What a document is made of

`Session.documents_are_well_formed_without_names` shows of every session on a picture that its
document is well formed, and that it holds nothing of the names that colors are given by. Its lines
are the declaration, the start tag, the background, the elements, and the end tag, and each element
follows a template (`Template`), which says for each attribute what may be in it: a printed number,
a printed color, or a fixed word. Two sessions that differ in the names of colors only, but not in
the colors that these stand for, leave the same document.

The first part is shown of one element (`SvgElement.matches_text`) and carried to the document,
whose lines are found again because there is no line break in any of them
(`Template.Matches.newline_notMem`, `splitOn_newline`). For the second part, commands that differ in
this way leave the very same session (`Session.execute_recolored`), and so do requests.
-/

namespace Sketch

/-! ## Templates -/

/-- What may be in an attribute, by the bytes that its value is made of. -/
inductive ValueKind where
  /-- A printed number. -/
  | number
  /-- A printed color. -/
  | color
  /-- A printed color, or the word for none. -/
  | paint
  /-- The word for round ends. -/
  | cap
  /-- The word for all of the canvas. -/
  | all
deriving DecidableEq

/-- The `value` of an attribute is of this kind, as a text. -/
def ValueKind.Admits : ValueKind → Text → Prop
  | number, value => IsPrintedNumber value
  | color, value => IsHexColor value
  | paint, value => IsHexColor value ∨ value = ascii "none"
  | cap, value => value = ascii "round"
  | all, value => value = ascii "100%"

/-- The `name` of an element and its attributes, each with the kind of its value. -/
structure Template where
  name : String
  slots : List (String × ValueKind)
deriving DecidableEq

namespace Template

/-- A line between two points, with its color, its width and round ends. -/
def line : Template :=
  ⟨"line", [("x1", .number), ("y1", .number), ("x2", .number), ("y2", .number), ("stroke", .color),
    ("stroke-width", .number), ("stroke-linecap", .cap)]⟩

/-- An ellipse by its center and radii, with its outline and what is inside. -/
def ellipse : Template :=
  ⟨"ellipse", [("cx", .number), ("cy", .number), ("rx", .number), ("ry", .number),
    ("stroke", .color), ("stroke-width", .number), ("fill", .paint)]⟩

/-- A rectangle by its least corner and its size, with its outline and what is inside. -/
def rect : Template :=
  ⟨"rect", [("x", .number), ("y", .number), ("width", .number), ("height", .number),
    ("stroke", .color), ("stroke-width", .number), ("fill", .paint)]⟩

/-- The templates of the elements of a picture: `line`, `ellipse` and `rect`. -/
def elements : List Template := [line, ellipse, rect]

/-- The rectangle behind the elements. -/
def background : Template :=
  ⟨"rect", [("width", .all), ("height", .all), ("fill", .color)]⟩

/-- The text `t` is an element that follows the template `T`: it has the name and the attributes of
`T`, with values that their kinds admit. -/
def Matches (T : Template) (t : Text) : Prop :=
  ∃ fields : List (String × Text),
    List.Forall₂ (fun slot field => field.1 = slot.1 ∧ slot.2.Admits field.2) T.slots fields ∧
      t = markup T.name fields

end Template

namespace SvgElement

/-- The template of an element, which is that of its constructor. -/
def template : SvgElement → Template
  | line .. => .line
  | ellipse .. => .ellipse
  | rect .. => .rect

/-- The template of an element `e` is among those of `Template.elements`. -/
theorem template_mem_elements (e : SvgElement) : e.template ∈ Template.elements := by
  cases e <;> simp [template, Template.elements]

/-- The numbers of an element are finite. Only an ellipse has any that might not be. -/
def IsFinite : SvgElement → Prop
  | ellipse cx cy rx ry _ _ _ => cx.isFinite ∧ cy.isFinite ∧ rx.isFinite ∧ ry.isFinite
  | line .. | rect .. => True

/-- The color inside a shape, `fill`, is printed as a color, or as the word for none. -/
theorem admits_paint (fill : Option Color) :
    ValueKind.paint.Admits ((fill.map Color.hex).getD (ascii "none")) := by
  cases fill with
  | none => exact .inr rfl
  | some color => exact .inl color.isHexColor_hex

/-- The text of an element `e` with finite numbers follows the template of `e`. -/
theorem matches_text {e : SvgElement} (h : e.IsFinite) : e.template.Matches e.text := by
  refine ⟨e.fields, ?_, ?_⟩
  · -- The attributes stand in the order of the template, and each has a value of its kind.
    cases e with
    | line x1 y1 x2 y2 stroke strokeWidth =>
      simp only [template, Template.line, fields, List.forall₂_cons, List.forall₂_nil_left_iff,
        true_and, and_true]
      exact ⟨isPrintedNumber_ofInt _, isPrintedNumber_ofInt _, isPrintedNumber_ofInt _,
        isPrintedNumber_ofInt _, stroke.isHexColor_hex, isPrintedNumber_ofInt _, rfl⟩
    | ellipse cx cy rx ry outline fill strokeWidth =>
      obtain ⟨hcx, hcy, hrx, hry⟩ := h
      simp only [template, Template.ellipse, fields, List.forall₂_cons, List.forall₂_nil_left_iff,
        true_and, and_true]
      exact ⟨Binary64.isPrintedNumber_text hcx, Binary64.isPrintedNumber_text hcy,
        Binary64.isPrintedNumber_text hrx, Binary64.isPrintedNumber_text hry,
        outline.isHexColor_hex, isPrintedNumber_ofInt _, admits_paint fill⟩
    | rect x y width height outline fill strokeWidth =>
      simp only [template, Template.rect, fields, List.forall₂_cons, List.forall₂_nil_left_iff,
        true_and, and_true]
      exact ⟨isPrintedNumber_ofInt _, isPrintedNumber_ofInt _, isPrintedNumber_ofInt _,
        isPrintedNumber_ofInt _, outline.isHexColor_hex, isPrintedNumber_ofInt _, admits_paint fill⟩
  · rw [text_eq_markup]
    cases e <;> rfl

end SvgElement

/-! ## Lines -/

/-- The `lines` of a text with a line feed behind each of them are found again by splitting it, with
an empty line at the end. -/
theorem splitOn_newline {lines : List Text} (h : ∀ line ∈ lines, Byte.newline ∉ line) :
    (lines.flatMap (· ++ [Byte.newline])).splitOn Byte.newline = lines ++ [[]] := by
  induction lines with
  | nil => rfl
  | cons line lines ih =>
    obtain ⟨hline, hlines⟩ := List.forall_mem_cons.mp h
    rw [List.flatMap_cons, List.append_assoc, List.singleton_append,
      List.splitOn_append_cons_self_of_not_mem hline, ih hlines]
    rfl

/-- There is no line feed in a `value` that a `kind` of attribute admits. -/
theorem ValueKind.Admits.newline_notMem {kind : ValueKind} {value : Text}
    (h : kind.Admits value) : Byte.newline ∉ value := by
  cases kind with
  | number => exact IsPrintedNumber.newline_notMem h
  | color => exact IsHexColor.newline_notMem h
  | paint =>
    obtain h | rfl := h
    · exact h.newline_notMem
    · decide
  | cap =>
    obtain rfl := h
    decide
  | all =>
    obtain rfl := h
    decide

/-- There is no line feed among attributes whose names and values have none. -/
theorem newline_notMem_attributes {fields : List (String × Text)}
    (h : ∀ field ∈ fields, Byte.newline ∉ ascii field.1 ∧ Byte.newline ∉ field.2) :
    Byte.newline ∉ attributes fields := by
  intro hmem
  obtain ⟨field, hfield, hmem⟩ := List.mem_flatMap.mp hmem
  obtain ⟨hname, hvalue⟩ := h field hfield
  have hquote : Byte.newline ∉ ascii " " ∧ Byte.newline ∉ ascii "=\"" ∧
      Byte.newline ∉ ascii "\"" := by
    decide
  simp only [List.mem_append, hname, hvalue, hquote, or_self] at hmem

namespace Template

/-- There is no line feed in the names of the template `T`. -/
def OnOneLine (T : Template) : Prop :=
  Byte.newline ∉ ascii T.name ∧ ∀ slot ∈ T.slots, Byte.newline ∉ ascii slot.1

/-- There is no line feed in an element `t` of a template `T` that is `OnOneLine`. -/
theorem Matches.newline_notMem {T : Template} {t : Text} (h : T.Matches t) (hT : T.OnOneLine) :
    Byte.newline ∉ t := by
  obtain ⟨fields, hfields, rfl⟩ := h
  obtain ⟨hname, hslots⟩ := hT
  have hall : ∀ field ∈ fields, Byte.newline ∉ ascii field.1 ∧ Byte.newline ∉ field.2 := by
    generalize T.slots = slots at hfields hslots
    induction hfields with
    | nil => simp
    | cons hfield _ ih =>
      obtain ⟨hslot, hslots⟩ := List.forall_mem_cons.mp hslots
      exact List.forall_mem_cons.mpr
        ⟨⟨hfield.1 ▸ hslot, hfield.2.newline_notMem⟩, ih hslots⟩
  have hends : Byte.newline ∉ ascii "<" ∧ Byte.newline ∉ ascii "/>" := by decide
  simp only [markup, List.mem_append, hname, hends, newline_notMem_attributes hall, or_self,
    not_false_eq_true]

/-- There is no line feed in the names of the template `background`. -/
theorem background_onOneLine : background.OnOneLine := by
  constructor <;> decide

/-- There is no line feed in the names of a template `T` among `elements`. -/
theorem onOneLine_of_mem_elements {T : Template} (h : T ∈ elements) : T.OnOneLine := by
  simp only [elements, List.mem_cons, List.not_mem_nil, or_false] at h
  obtain rfl | rfl | rfl := h
  · constructor <;> decide
  · constructor <;> decide
  · constructor <;> decide

end Template

/-! ## Documents -/

/-- The start tag of a document on a canvas of the given `width` and `height`. -/
def startTag (width height : Int32) : Text :=
  let width := Text.ofInt width.toInt
  let height := Text.ofInt height.toInt
  ascii "<svg" ++ attributes [("xmlns", ascii "http://www.w3.org/2000/svg"), ("width", width),
    ("height", height), ("viewBox", ascii "0 0 " ++ width ++ ascii " " ++ height)] ++ ascii ">"

/-- The lines of the text are those of a document with the given count of elements, on a canvas with
the given settings: the declaration, the start tag, the background, the elements, and the end tag,
behind which there is nothing more. -/
def IsDocument (c : CanvasConfig) (count : Nat) (t : Text) : Prop :=
  ∃ background elements, Template.background.Matches background ∧ elements.length = count ∧
    (∀ e ∈ elements, ∃ T ∈ Template.elements, T.Matches e) ∧
    t.splitOn Byte.newline =
      [ascii "<?xml version=\"1.0\" encoding=\"UTF-8\"?>", startTag c.width c.height] ++
        (background :: elements).map (ascii "  " ++ ·) ++ [ascii "</svg>", []]

/-- There is no line feed in a start tag, whose only variable parts are integers. -/
theorem newline_notMem_startTag (width height : Int32) :
    Byte.newline ∉ startTag width height := by
  have hwidth := (isPrintedNumber_ofInt width.toInt).newline_notMem
  have hheight := (isPrintedNumber_ofInt height.toInt).newline_notMem
  have hattributes : Byte.newline ∉ attributes [("xmlns", ascii "http://www.w3.org/2000/svg"),
      ("width", Text.ofInt width.toInt), ("height", Text.ofInt height.toInt),
      ("viewBox", ascii "0 0 " ++ Text.ofInt width.toInt ++ ascii " " ++
        Text.ofInt height.toInt)] := by
    apply newline_notMem_attributes
    have hblanks : Byte.newline ∉ ascii "0 0 " ∧ Byte.newline ∉ ascii " " := by decide
    simp only [List.forall_mem_cons, List.mem_append, hwidth, hheight, hblanks, or_self,
      not_false_eq_true, and_true, List.not_mem_nil, false_imp_iff, implies_true]
    decide
  have hends : Byte.newline ∉ ascii "<svg" ∧ Byte.newline ∉ ascii ">" := by decide
  simp only [startTag, List.mem_append, hattributes, hends, or_self, not_false_eq_true]

/-- The document of `elements` that follow templates is one: `IsDocument` with as many elements. -/
theorem isDocument_documentOf {c : CanvasConfig} {elements : List Text}
    (h : ∀ e ∈ elements, ∃ T ∈ Template.elements, T.Matches e) :
    IsDocument c elements.length (documentOf c elements) := by
  let background := markup "rect" [("width", ascii "100%"), ("height", ascii "100%"),
    ("fill", (Color.ofName c.background).hex)]
  have hbackground : Template.background.Matches background := by
    refine ⟨_, ?_, rfl⟩
    simp only [Template.background, List.forall₂_cons, List.forall₂_nil_left_iff, true_and,
      and_true]
    exact ⟨rfl, rfl, Color.isHexColor_hex _⟩
  refine ⟨background, elements, hbackground, rfl, h, ?_⟩
  have hlines : documentOf c elements =
      ([ascii "<?xml version=\"1.0\" encoding=\"UTF-8\"?>", startTag c.width c.height] ++
        (background :: elements).map (ascii "  " ++ ·) ++ [ascii "</svg>"]).flatMap
          (· ++ [Byte.newline]) := rfl
  rw [hlines, splitOn_newline, List.append_assoc, List.singleton_append]
  -- No line of the document has a line feed in it, so splitting finds them all.
  have hindented : ∀ e ∈ background :: elements, Byte.newline ∉ ascii "  " ++ e := by
    have hblanks : Byte.newline ∉ ascii "  " := by decide
    have hplain : ∀ e ∈ background :: elements, Byte.newline ∉ e := by
      refine List.forall_mem_cons.mpr ⟨?_, fun e he => ?_⟩
      · exact hbackground.newline_notMem Template.background_onOneLine
      · obtain ⟨T, hT, hmatches⟩ := h e he
        exact hmatches.newline_notMem (Template.onOneLine_of_mem_elements hT)
    intro e he
    exact List.not_mem_append hblanks (hplain e he)
  intro line hline
  simp only [List.mem_append, List.mem_cons, List.not_mem_nil, or_false, List.mem_map] at hline
  obtain ((rfl | rfl) | ⟨e, he, rfl⟩) | rfl := hline
  · decide
  · exact newline_notMem_startTag _ _
  · exact hindented e (List.mem_cons.mpr he)
  · decide

/-! ## The elements of a session -/

/-- Half of a 32-bit integer `n`, as `ofHalves` holds it, is finite. -/
theorem Binary64.isFinite_ofHalves (n : Int32) : (ofHalves n.toInt).isFinite := by
  have hword := isWord32_toInt n
  unfold IsWord32 at hword
  obtain ⟨e, he⟩ : ∃ e, 1074 = e + 1 := ⟨1073, rfl⟩
  have hhalf : unitsPerOne / 2 = 2 ^ e := by
    rw [unitsPerOne_eq he, Nat.pow_succ, Nat.mul_div_cancel _ (by decide)]
  rw [isFinite, ofHalves, hhalf,
    units?_ofUnits_mul_two_pow (by omega) (by omega) (by omega), Option.isSome_some]

/-- The numbers of the element `e` that a `call` draws are finite, whatever its box is. -/
theorem SvgElement.isFinite_of_ofCall? {call : Call} {e : SvgElement} (h : ofCall? call = some e) :
    e.IsFinite := by
  cases call with
  | ellipse b outline fill strokeWidth =>
    obtain rfl := Option.some.inj h
    exact ⟨Binary64.isFinite_ofHalves _, Binary64.isFinite_ofHalves _,
      Binary64.isFinite_ofHalves _, Binary64.isFinite_ofHalves _⟩
  | line | rectangle =>
    obtain rfl := Option.some.inj h
    trivial
  | clear => cases h

/-- A picture of any `calls` has a well-formed document, with as many elements as calls have one. -/
theorem isDocument_onCanvas (c : CanvasConfig) (calls : List Call) :
    let drawn := SvgPicture.onCanvas c (calls.filterMap SvgElement.ofCall?)
    IsDocument c drawn.elements.length drawn.document := by
  intro drawn
  have hmatches : ∀ t ∈ drawn.elements.map SvgElement.text,
      ∃ T ∈ Template.elements, T.Matches t := by
    intro t ht
    obtain ⟨e, he, rfl⟩ := List.mem_map.mp ht
    obtain ⟨call, -, hcall⟩ := List.mem_filterMap.mp he
    have hfinite := SvgElement.isFinite_of_ofCall? hcall
    exact ⟨e.template, e.template_mem_elements, SvgElement.matches_text hfinite⟩
  have hdocument : IsDocument c _ _ := isDocument_documentOf hmatches
  rwa [List.length_map, ← SvgPicture.document_onCanvas] at hdocument

/-! ## The names of colors -/

/-- The two actions are the same, or they set the same color by two names. -/
inductive Action.Recolored : Action → Action → Prop where
  | same (a : Action) : Recolored a a
  | color {name name' : Text} : Color.ofName name = Color.ofName name' →
      Recolored (.setColor name) (.setColor name')

/-- The commands are the same but for the names of colors, and for their places, which such names
shift. -/
def Command.Recolored (cs cs' : List Command) : Prop :=
  List.Forall₂ (fun c c' => c.action.Recolored c'.action) cs cs'

/-- The two requests are the same but for the names of colors. Two programs are so if both are
refused, or if the commands that they denote are so. -/
inductive Request.Recolored : Request → Request → Prop where
  | same (request : Request) : Recolored request request
  | runCommands {cs cs' : List Command} : Command.Recolored cs cs' →
      Recolored (.runCommands cs) (.runCommands cs')
  | run {source source' : Text} {cs cs' : List Command} : Program.read false source = .ok cs →
      Program.read false source' = .ok cs' → Command.Recolored cs cs' →
      Recolored (.run source) (.run source')
  | refused {source source' : Text} {e e' : Diagnostic} : Program.read false source = .error e →
      Program.read false source' = .error e' → Recolored (.run source) (.run source')

namespace Session

variable {σ : Type} [Surface σ]

/-- Commands `c` and `c'` that set the same color by two names leave the same session. -/
theorem execute_recolored (s : Session σ) {c c' : Command} (h : c.action.Recolored c'.action) :
    (s.execute c).2 = (s.execute c').2 := by
  obtain ⟨action, place⟩ := c
  obtain ⟨action', place'⟩ := c'
  cases h with
  | same => rfl
  | @color name name' hname =>
    have hpen : ∀ name place, (s.execute ⟨.setColor name, place⟩).2 =
        { s with pen := { s.pen with color := .ofName name } } := fun _ _ => rfl
    rw [hpen, hpen, hname]

/-- Commands `cs` and `cs'` that are the same but for the names of colors leave the same session,
one by one. -/
theorem executeAll_recolored (s : Session σ) {cs cs' : List Command}
    (h : Command.Recolored cs cs') : (s.executeAll cs).2 = (s.executeAll cs').2 := by
  induction h generalizing s with
  | nil => rfl
  | cons hcommand _ ih =>
    rw [executeAll_cons, executeAll_cons, execute_recolored s hcommand]
    exact ih _

/-- A `request` and a `request'` that are the same but for the names of colors leave the same
session. -/
theorem ask_recolored (s : Session σ) {request request' : Request}
    (h : request.Recolored request') : (s.ask request).2 = (s.ask request').2 := by
  cases h with
  | same => rfl
  | runCommands hcs => exact executeAll_recolored s hcs
  | run hread hread' hcs =>
    show (s.run _).2 = (s.run _).2
    rw [(run_of_read hread s).2, (run_of_read hread' s).2]
    exact executeAll_recolored s hcs
  | refused hread hread' =>
    show (s.run _).2 = (s.run _).2
    rw [run_of_refusal hread, run_of_refusal hread']

/-- Lists of requests that are the same but for the names of colors leave the same session. -/
theorem askAll_recolored (s : Session σ) {requests requests' : List Request}
    (h : List.Forall₂ Request.Recolored requests requests') :
    (s.askAll requests).2 = (s.askAll requests').2 := by
  induction h generalizing s with
  | nil => rfl
  | cons hrequest _ ih =>
    rw [askAll_cons, askAll_cons, ask_recolored s hrequest]
    exact ih _

/-- The document of a session on a picture is well formed and holds no names of colors.

Whatever is asked of the session, the lines of the document are those of a document with as many
elements as the picture has, each of which follows a template. If the background is named otherwise,
and the colors in what is asked are, but all of these names stand for the same colors as before, the
document is the same byte for byte. -/
theorem documents_are_well_formed_without_names {c : CanvasConfig} (h : c.problem? = none) :
    ∃ p, SvgPicture.ofConfig c = .ok p ∧ ∀ requests,
      let drawn := ((start p c).askAll requests).2.surface
      IsDocument c drawn.elements.length drawn.document ∧
      ∀ background requests', Color.ofName c.background = Color.ofName background →
        List.Forall₂ Request.Recolored requests requests' →
        let c' := { c with background }
        ∃ p', SvgPicture.ofConfig c' = .ok p' ∧
          ((start p' c').askAll requests').2.surface.document = drawn.document := by
  have hpicture : ∀ background,
      SvgPicture.ofConfig { c with background } = .ok (.onCanvas { c with background } []) := by
    intro background
    have hproblem : { c with background }.problem? = none := h
    rw [SvgPicture.ofConfig, CanvasConfig.guarded, hproblem]
    rfl
  refine ⟨_, hpicture c.background, fun requests => ?_⟩
  intro drawn
  constructor
  · have hstart : Alike (Shows c) (start (⟨c.width, c.height, [], none⟩ : Recording) c)
        (start (SvgPicture.onCanvas c []) c) := ⟨rfl, rfl, rfl⟩
    -- A recording of the same requests says which elements the picture holds, one for each call.
    have hlast := (askAll_inLockstep (lockstep_shows c) hstart requests).session.surface.picture
    have hdrawn : drawn = .onCanvas c _ := hlast
    rw [hdrawn]
    exact isDocument_onCanvas c _
  · intro background requests' hbackground hrequests c'
    refine ⟨_, hpicture background, ?_⟩
    -- The two pictures start out equal, since the name of the background only enters by its color.
    have hstart : start (SvgPicture.onCanvas c' []) c' = start (.onCanvas c []) c := by
      have hcanvas : SvgPicture.onCanvas c' [] = .onCanvas c [] := by
        rw [SvgPicture.onCanvas, SvgPicture.onCanvas, hbackground]
      rw [hcanvas]
      rfl
    rw [hstart, ← askAll_recolored _ hrequests]

/-- A circle in the color of the given name, and a rectangle past the pen. -/
def circleInColor (name : String) : List Request :=
  [.run (ascii "set color \"" ++ ascii name ++ ascii "\"\ndraw circle 10 20 5.5"),
    .draw (.rectangle ⟨7, 8, 3, 5⟩ .black none 1)]

/-- A name that would close the document is unknown, and so the circle is black, as it is by that
name. The document has two elements, and the case of the background makes no difference to it. -/
theorem document_without_closing_name :
    let c : CanvasConfig := {}
    let requests := circleInColor "</svg>"
    let requests' := circleInColor "Black"
    c.problem? = none ∧ Color.ofName c.background = Color.ofName (ascii "WHITE") ∧
      List.Forall₂ Request.Recolored requests requests' ∧
      ∃ p p', SvgPicture.ofConfig c = .ok p ∧
        SvgPicture.ofConfig { c with background := ascii "WHITE" } = .ok p' ∧
        let document := ((start p c).askAll requests).2.surface.document
        IsDocument c 2 document ∧
          ((start p' { c with background := ascii "WHITE" }).askAll requests').2.surface.document =
            document := by
  intro c requests requests'
  have hproblem : c.problem? = none := by decide
  have hbackground : Color.ofName c.background = Color.ofName (ascii "WHITE") :=
    Color.ofName_eq_of_alike (by decide)
  -- The table of colors has no `</svg>`, so that it stands for black like any unknown name.
  have hname : Color.ofName (ascii "</svg>") = Color.ofName (ascii "Black") := by
    rw [Color.ofName_of_not_isName (by decide)]
    decide
  have hread : ∀ name ∈ ["</svg>", "Black"], Program.read false
      (ascii "set color \"" ++ ascii name ++ ascii "\"\ndraw circle 10 20 5.5") =
        .ok [⟨.setColor (ascii name), ⟨1, 0⟩⟩,
          ⟨.drawCircle (.ofInt 10) (.ofInt 20) (.ofHalves 11), ⟨2, 0⟩⟩] := by
    decide +kernel
  have hrequests : List.Forall₂ Request.Recolored requests requests' :=
    .cons (.run (hread _ (by simp)) (hread _ (by simp))
      (.cons (.color hname) (.cons (.same _) .nil))) (.cons (.same _) .nil)
  obtain ⟨p, hp, hdocuments⟩ := documents_are_well_formed_without_names hproblem
  obtain ⟨hdocument, hrenamed⟩ := hdocuments requests
  obtain ⟨p', hp', hsame⟩ := hrenamed _ requests' hbackground hrequests
  obtain rfl := Except.ok.inj hp
  have hcount : ((start (SvgPicture.onCanvas c []) c).askAll requests).2.surface.elements.length =
      2 := by
    decide +kernel
  exact ⟨hproblem, hbackground, hrequests, _, p', hp, hp', hcount ▸ hdocument, hsame⟩

end Session

end Sketch
