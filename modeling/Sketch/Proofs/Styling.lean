import Sketch.Proofs.Lockstep
import Sketch.Proofs.Path

/-!
# Styling has no say in the geometry

Colors, fill modes and stroke widths say how a drawing looks, and not where anything is or whether a
command fails. `Session.geometry_without_styling` shows this of two sessions whose commands differ
in the names of colors only: after each command their pens are at the same place, their recordings
hold calls of the same kinds in the same boxes, and the results are worded the same.

It is a statement about two runs, so the proof carries a relation between two sessions
(`Session.SameShape`). What a command does to one of them is matched by what it does to the other
(`Pen.obey_alike`, `Session.settle_sameShape`), and the runs are compared cue by cue.
-/

namespace Sketch

/-! ## What two sessions have in common -/

namespace Call

/-- The color inside the shape of a call, if it has one. -/
def fill? : Call → Option Color
  | ellipse _ _ fill _ | rectangle _ _ fill _ => fill
  | line .. | clear => none

/-- The `call` is filled as the pen `p` has it: in the color of `p` if it fills shapes, and not at
all otherwise. -/
structure FilledBy (call : Call) (p : Pen) : Prop where
  /-- A line has no color inside it. -/
  line : call.kind = .line → call.fill? = none
  /-- A shape has the color of the pen inside it exactly if the pen fills. -/
  shape : call.kind = .ellipse ∨ call.kind = .rectangle →
    call.fill? = if p.fills then some p.color else none

/-- The calls `c` and `c'` are of one kind and have one box. Their colors and widths may differ. -/
structure SameShape (c c' : Call) : Prop where
  kind : c.kind = c'.kind
  box : c.box? = c'.box?

end Call

/-- The pens `p` and `p'` are at one place, and both down or both up. Their styling may differ. -/
structure Pen.SamePlace (p p' : Pen) : Prop where
  x : p.x = p'.x
  y : p.y = p'.y
  isDown : p.isDown = p'.isDown

/-- The recordings `r` and `r'` have one size, refuse the same calls, and hold calls of the same
shapes. -/
structure Recording.SameShape (r r' : Recording) : Prop where
  width : r.width = r'.width
  height : r.height = r'.height
  refusal : r.refusal = r'.refusal
  calls : List.Forall₂ Call.SameShape r.calls r'.calls

/-- The sessions `s` and `s'` differ in styling only: in colors, stroke widths and the fill mode. -/
structure Session.SameShape (s s' : Session Recording) : Prop where
  pen : s.pen.SamePlace s'.pen
  surface : s.surface.SameShape s'.surface

/-- What has come of the turns `t` and `t'` differs in styling only. -/
structure Turn.SameShape (t t' : Turn Recording) : Prop where
  pen : t.after.pen.SamePlace t'.after.pen
  /-- Both commands have failed, or none. -/
  isDone : t.isDone = t'.isDone
  /-- Both have failed with the same words. -/
  fault : t.isDone = false → t.result.text = t'.result.text
  /-- The results have the same words, unless they say the name of a color. -/
  text : (∀ name, t.command.action ≠ .setColor name) → t.result.text = t'.result.text
  calls : List.Forall₂ Call.SameShape t.after.surface.calls t'.after.surface.calls

/-! ## Cues -/

/-- What happens to a session on a recording: a command is carried out, the fill mode is switched,
or the recording is armed against a kind of calls. -/
inductive Cue where
  | command (command : Command)
  | setFill (fills : Bool)
  | refuse (kind : CallKind) (message : Text)
deriving DecidableEq

/-- The turns of the commands among cues, each on the session that the cues before it leave. -/
def Session.played (s : Session Recording) : List Cue → List (Turn Recording)
  | [] => []
  | .command c :: cues => ⟨s, c⟩ :: (s.execute c).2.played cues
  | .setFill fills :: cues => (s.setFill fills).played cues
  | .refuse kind message :: cues =>
    Session.played { s with surface := s.surface.refuse kind message } cues

/-- The two actions are the same, or they set two colors. -/
inductive Action.Restyled : Action → Action → Prop where
  | same (a : Action) : Restyled a a
  | color (name name' : Text) : Restyled (.setColor name) (.setColor name')

/-- The two lists of cues are the same but for the names of colors and the switches of the fill
mode, of which each list has its own. -/
inductive Cue.Restyled : List Cue → List Cue → Prop where
  | nil : Restyled [] []
  | command {c c' : Command} {cues cues' : List Cue} : c.action.Restyled c'.action →
      Restyled cues cues' → Restyled (.command c :: cues) (.command c' :: cues')
  | refuse {cues cues' : List Cue} (kind : CallKind) (message : Text) : Restyled cues cues' →
      Restyled (.refuse kind message :: cues) (.refuse kind message :: cues')
  | fillLeft {cues cues' : List Cue} (fills : Bool) :
      Restyled cues cues' → Restyled (.setFill fills :: cues) cues'
  | fillRight {cues cues' : List Cue} (fills : Bool) :
      Restyled cues cues' → Restyled cues (.setFill fills :: cues')

/-! ## One command in two sessions -/

namespace Pen

variable {p p' : Pen}

/-- The effects of an action on two pens: both lack the pixel of the same coordinate, or they report
the same and differ in styling only. -/
inductive ObeyedAlike : Except Fault Effect → Except Fault Effect → Prop where
  | fault (fault : Fault) : ObeyedAlike (.error fault) (.error fault)
  | silent {pen pen' : Pen} (outcome : Outcome) : pen.SamePlace pen' →
      ObeyedAlike (.ok ⟨none, pen, outcome⟩) (.ok ⟨none, pen', outcome⟩)
  | drawn {call call' : Call} {pen pen' : Pen} (outcome : Outcome) : call.SameShape call' →
      pen.SamePlace pen' →
      ObeyedAlike (.ok ⟨some call, pen, outcome⟩) (.ok ⟨some call', pen', outcome⟩)

/-- Effects that need the pixel of `x` first are alike if they are for every pixel `p`. -/
theorem ObeyedAlike.bind {x : Binary64} {next next' : Pixel → Except Fault Effect}
    (h : ∀ p, ObeyedAlike (next p) (next' p)) :
    ObeyedAlike (pixelOf x >>= next) (pixelOf x >>= next') := by
  cases pixelOf x with
  | error fault => exact .fault fault
  | ok p => exact h p

/-- Both pens follow to a point, or none does, as they are both down or both up. -/
theorem SamePlace.follow (h : p.SamePlace p') (x y : Binary64) :
    (p.follow x y).SamePlace (p'.follow x y) := by
  unfold Pen.follow
  rw [h.isDown]
  split
  · exact ⟨rfl, rfl, rfl⟩
  · exact h

/-- An action `a` has the same effect on two pens at one place, but for styling. -/
theorem obey_alike (h : p.SamePlace p') (a : Action) : ObeyedAlike (p.obey a) (p'.obey a) := by
  cases a with
  | drawLine x1 y1 x2 y2 =>
    refine .bind fun px1 => .bind fun py1 => .bind fun px2 => .bind fun py2 => ?_
    exact .drawn _ ⟨rfl, rfl⟩ (h.follow x2 y2)
  | drawCircle x y radius =>
    refine .bind fun left => .bind fun top => .bind fun right => .bind fun bottom => ?_
    refine .bind fun cx => .bind fun cy => .bind fun r => ?_
    exact .drawn _ ⟨rfl, rfl⟩ (h.follow x y)
  | drawRectangle x y width height =>
    refine .bind fun left => .bind fun top => .bind fun right => .bind fun bottom => ?_
    refine .bind fun w => .bind fun h' => ?_
    exact .drawn _ ⟨rfl, rfl⟩ (h.follow _ _)
  | setColor name => exact .silent _ ⟨h.x, h.y, h.isDown⟩
  | clear => exact .drawn _ ⟨rfl, rfl⟩ h
  | move x y =>
    refine .bind fun px => .bind fun py => ?_
    -- The line of a move starts at the place of the pen, which the pens have in common.
    show ObeyedAlike (if p.isDown then _ else _) (if p'.isDown then _ else _)
    rw [h.isDown, h.x, h.y]
    split
    · refine .bind fun left => .bind fun top => ?_
      exact .drawn _ ⟨rfl, rfl⟩ ⟨rfl, rfl, rfl⟩
    · exact .silent _ ⟨rfl, rfl, rfl⟩
  | penUp => exact .silent _ ⟨h.x, h.y, rfl⟩
  | penDown => exact .silent _ ⟨h.x, h.y, rfl⟩

/-- The `call` of an action `a` is filled as the pen `p` has it. -/
theorem filledBy_of_obey {a : Action} {e : Effect} {call : Call} (h : p.obey a = .ok e)
    (hcall : e.call = some call) : call.FilledBy p := by
  -- Lines and wiping have nothing to fill, and the two shapes take their color from `Pen.fill`.
  cases a with
  | drawLine x1 y1 x2 y2 =>
    obtain ⟨_, _, _, _, _, _, _, _, rfl⟩ := drawLine_eq_ok_iff.mp h
    obtain rfl := Option.some.inj hcall
    exact ⟨fun _ => rfl, by simp [Call.kind]⟩
  | drawCircle x y radius =>
    obtain ⟨_, _, _, _, _, _, _, _, _, _, _, _, _, _, rfl⟩ := drawCircle_eq_ok_iff.mp h
    obtain rfl := Option.some.inj hcall
    exact ⟨by simp [Call.kind], fun _ => rfl⟩
  | drawRectangle x y width height =>
    obtain ⟨_, _, _, _, _, _, _, _, _, _, _, _, rfl⟩ := drawRectangle_eq_ok_iff.mp h
    obtain rfl := Option.some.inj hcall
    exact ⟨by simp [Call.kind], fun _ => rfl⟩
  | move x y =>
    obtain ⟨_, _, _, _, ⟨_, _, _, _, _, rfl⟩ | ⟨_, rfl⟩⟩ := move_eq_ok_iff.mp h
    · obtain rfl := Option.some.inj hcall
      exact ⟨fun _ => rfl, by simp [Call.kind]⟩
    · cases hcall
  | clear =>
    obtain rfl := Except.ok.inj h
    obtain rfl := Option.some.inj hcall
    exact ⟨by simp [Call.kind], by simp [Call.kind]⟩
  | setColor name | penUp | penDown =>
    obtain rfl := Except.ok.inj h
    cases hcall

end Pen

/-- Calls of one shape are kept by both recordings, or refused by both, since a refusal is for a
kind of calls. -/
theorem Recording.draw_alike {r r' : Recording} {call call' : Call} (hr : r.SameShape r')
    (hcall : call.SameShape call') :
    DrawnAlike Recording.SameShape (Surface.draw r call) (Surface.draw r' call') := by
  have hrefusal : r.refusal? call.kind = r'.refusal? call'.kind := by
    rw [Recording.refusal?, Recording.refusal?, hr.refusal, hcall.kind]
  show DrawnAlike _ (r.record call) (r'.record call')
  unfold Recording.record
  rw [hrefusal]
  split
  · exact .refused _
  · refine .taken ⟨hr.width, hr.height, hr.refusal, ?_⟩
    exact List.rel_append hr.calls (.cons hcall .nil)

namespace Session

variable {s s' : Session Recording}

/-- Effects `x` and `x'` that are alike take place in both sessions, or in none, and have the same
result. -/
theorem settle_sameShape (h : s.SameShape s') {x x' : Except Fault Effect}
    (hx : Pen.ObeyedAlike x x') :
    (s.settle x).1 = (s'.settle x').1 ∧ (s.settle x).2.SameShape (s'.settle x').2 := by
  cases hx with
  | fault fault => exact ⟨rfl, h⟩
  | silent outcome hpen => exact ⟨rfl, hpen, h.surface⟩
  | drawn outcome hcall hpen =>
    have hdraw := Recording.draw_alike h.surface hcall
    simp only [settle]
    generalize Surface.draw s.surface _ = drawn at hdraw ⊢
    generalize Surface.draw s'.surface _ = drawn' at hdraw ⊢
    cases hdraw with
    | taken hsurface => exact ⟨rfl, hpen, hsurface⟩
    | refused message => exact ⟨rfl, h⟩

end Session

namespace Turn

/-- A turn `t` adds at most one call to the recording, which is filled as the pen of its session has
it. -/
theorem exists_added (t : Turn Recording) :
    ∃ added : Option Call, t.after.surface.calls = t.session.surface.calls ++ added.toList ∧
      ∀ call ∈ added, call.FilledBy t.session.pen := by
  have hends := t.ends
  generalize t.result = result at hends
  generalize t.after = last at hends ⊢
  cases hends with
  | stuck | refused | silent => exact ⟨none, (List.append_nil _).symm, by simp⟩
  | @drawn call _ _ _ hobey hdraw =>
    refine ⟨some call, Recording.calls_of_draw hdraw, fun _ hcall => ?_⟩
    exact Pen.filledBy_of_obey hobey hcall

variable {t t' : Turn Recording}

/-- Turns with the same result (`hresult`) differ in styling only if the sessions after them do
(`hafter`). -/
theorem sameShape_of_result (hresult : t.result = t'.result)
    (hafter : t.after.SameShape t'.after) : t.SameShape t' where
  pen := hafter.pen
  isDone := by rw [isDone, isDone, hresult]
  fault _ := by rw [hresult]
  text _ := by rw [hresult]
  calls := hafter.surface.calls

/-- Two commands that differ in the name of a color only, carried out on sessions that differ in
styling only, leave it at that. -/
theorem sameShape_of_restyled (h : t.session.SameShape t'.session)
    (haction : t.command.action.Restyled t'.command.action) :
    t.SameShape t' ∧ t.after.SameShape t'.after := by
  obtain ⟨s, action, place⟩ := t
  obtain ⟨s', action', place'⟩ := t'
  cases haction with
  | same =>
    obtain ⟨hresult, hafter⟩ := Session.settle_sameShape h (Pen.obey_alike h.pen action)
    exact ⟨sameShape_of_result hresult hafter, hafter⟩
  | color name name' =>
    -- Both commands are done, and their results are the ones that need not agree.
    have hafter : Session.SameShape (Turn.after ⟨s, .setColor name, place⟩)
        (Turn.after ⟨s', .setColor name', place'⟩) :=
      ⟨⟨h.pen.x, h.pen.y, h.pen.isDown⟩, h.surface⟩
    refine ⟨⟨hafter.pen, rfl, ?_, ?_, hafter.surface.calls⟩, hafter⟩
    · intro hfailed
      cases hfailed
    · intro hname
      exact absurd rfl (hname name)

end Turn

namespace Session

variable {s s' : Session Recording} {r r' : Recording} {cues cues' : List Cue}

/-- Cues that differ in styling only (`hcues`) have turns that differ in styling only, by induction
over both lists of cues. -/
theorem played_sameShape (h : s.SameShape s') (hcues : Cue.Restyled cues cues') :
    List.Forall₂ Turn.SameShape (s.played cues) (s'.played cues') := by
  induction hcues generalizing s s' with
  | nil => exact .nil
  | @command c c' _ _ haction _ ih =>
    have hsessions : (Turn.mk s c).session.SameShape (Turn.mk s' c').session := h
    obtain ⟨hturn, hafter⟩ := Turn.sameShape_of_restyled hsessions haction
    exact .cons hturn (ih hafter)
  | refuse kind message _ ih =>
    exact ih ⟨h.pen, h.surface.width, h.surface.height, rfl, h.surface.calls⟩
  | fillLeft fills _ ih => exact ih ⟨⟨h.pen.x, h.pen.y, h.pen.isDown⟩, h.surface⟩
  | fillRight fills _ ih => exact ih ⟨⟨h.pen.x, h.pen.y, h.pen.isDown⟩, h.surface⟩

/-- Fresh sessions on recordings of one shape differ in styling only, whatever the stroke widths of
`config` and `config'` are. -/
theorem start_sameShape (hr : r.SameShape r') (config config' : CanvasConfig) :
    (start r config).SameShape (start r' config') := by
  refine ⟨⟨?_, ?_, rfl⟩, hr⟩
  · show Binary64.ofInt (r.width / 2).toInt = Binary64.ofInt (r'.width / 2).toInt
    rw [hr.width]
  · show Binary64.ofInt (r.height / 2).toInt = Binary64.ofInt (r'.height / 2).toInt
    rw [hr.height]

/-- Styling has no say in the geometry.

Two sessions start on recordings of one size, with any stroke widths. They are armed alike and carry
out commands that differ in the names of colors only, while the fill mode of each is switched at any
time. Then turn by turn their pens are at one place and both down or both up, the same commands fail
with the same words, the results are worded the same but for the names of colors, and the recordings
hold as many calls, of the same kinds and in the same boxes. A call of any turn is filled as the pen
has it: a line never, and a shape with the color of the pen exactly if the pen fills. -/
theorem geometry_without_styling (hr : r.SameShape r') (config config' : CanvasConfig)
    (hcues : Cue.Restyled cues cues') :
    List.Forall₂ Turn.SameShape ((start r config).played cues)
        ((start r' config').played cues') ∧
      ∀ t : Turn Recording, ∃ added : Option Call,
        t.after.surface.calls = t.session.surface.calls ++ added.toList ∧
        ∀ call ∈ added, call.FilledBy t.session.pen :=
  ⟨played_sameShape (start_sameShape hr config config') hcues, Turn.exists_added⟩

/-- A circle that is filled with red, and then a move that is refused. -/
def inRed : List Cue :=
  [.setFill true, .command ⟨.setColor (ascii "red"), ⟨1, 0⟩⟩,
    .command ⟨.drawCircle (.ofInt 10) (.ofInt 20) (.ofInt 5), ⟨2, 0⟩⟩,
    .refuse .line (ascii "jam"), .command ⟨.move (.ofInt 3) (.ofInt 4), ⟨3, 0⟩⟩]

/-- The same in blue, where the circle is left empty. -/
def inBlue : List Cue :=
  [.command ⟨.setColor (ascii "blue"), ⟨1, 0⟩⟩,
    .command ⟨.drawCircle (.ofInt 10) (.ofInt 20) (.ofInt 5), ⟨2, 0⟩⟩,
    .refuse .line (ascii "jam"), .setFill true, .command ⟨.move (.ofInt 3) (.ofInt 4), ⟨3, 0⟩⟩]

/-- The circle is drawn in the same box, and the move is refused in both. -/
theorem geometry_in_red_and_blue :
    let r : Recording := ⟨800, 600, [], none⟩
    let red := (start r { strokeWidth := 1 }).played inRed
    let blue := (start r { strokeWidth := 9 }).played inBlue
    r.SameShape r ∧ Cue.Restyled inRed inBlue ∧ List.Forall₂ Turn.SameShape red blue ∧
      red.map Turn.isDone = [true, true, false] ∧
      red.map (fun t => t.after.surface.calls.map Call.fill?) =
        [[], [some (.ofName (ascii "red"))], [some (.ofName (ascii "red"))]] ∧
      blue.map (fun t => t.after.surface.calls.map Call.fill?) = [[], [none], [none]] := by
  intro r red blue
  have hr : r.SameShape r := ⟨rfl, rfl, rfl, .nil⟩
  have hcues : Cue.Restyled inRed inBlue := by
    refine .fillLeft true (.command (.color _ _) (.command (.same _) ?_))
    exact .refuse _ _ (.fillRight true (.command (.same _) .nil))
  obtain ⟨hturns, -⟩ :=
    geometry_without_styling hr { strokeWidth := 1 } { strokeWidth := 9 } hcues
  exact ⟨hr, hcues, hturns, by decide +kernel, by decide +kernel, by decide +kernel⟩

end Session

end Sketch
