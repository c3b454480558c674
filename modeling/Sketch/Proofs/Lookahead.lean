import Sketch.Proofs.Truncation

/-!
# Reading tokens step by step

A reader takes the next token, looks at it, or takes all that are left. `Reader.steps_agree` shows
that any steps in any order find the tokens that are found all at once: taking finds the first
unread one, looking finds the same and takes nothing, and after the last one there is the end marker
again and again. A string literal that is not closed is an error once, for the step that comes to
it, and the end after that.

The proof carries a relation between a reader and a `Feed`, which is the list of its unread tokens
and whether an error is to come behind them (`Reader.Delivers`). The relation hides whether a token
has been looked at. Each step keeps it (`Reader.delivers_perform`), and what the steps answer is
determined by the feed alone.

Whether a reader is at the end is asked of its cursor, and that is past a token that was only looked
at. `Reader.atEnd_unless_peeked` shows that there the question is answered too early, and nowhere
else.
-/

namespace Sketch

namespace Reader

/-! ## Steps -/

/-- What a reader can be asked for: to take a token, to look at one, or to take all that are left.
-/
inductive Step where
  | next
  | peek
  | takeAll
deriving DecidableEq

/-- What a reader answers: a token or all that are left, either of which may be an error. -/
inductive Answer where
  | one (token : Except LexicalError Token)
  | all (tokens : Except LexicalError (List Token))

/-- The step that is answered so has failed. -/
def Answer.isError : Answer → Bool
  | one (.error _) | all (.error _) => true
  | one (.ok _) | all (.ok _) => false

/-- The answer of the reader `r` to a step, and the reader after it. -/
def perform (r : Reader) : Step → Answer × Reader
  | .next => (.one r.next.1, r.next.2)
  | .peek => (.one r.peek.1, r.peek.2)
  | .takeAll => (.all r.takeAll.1, r.takeAll.2)

/-- The reader after some `steps` from `r`. -/
def after (r : Reader) (steps : List Step) : Reader :=
  steps.foldl (fun r step => (r.perform step).2) r

/-- The answers of the reader `r` to some steps, in order. -/
def answers (r : Reader) : List Step → List Answer
  | [] => []
  | step :: steps => (r.perform step).1 :: (r.perform step).2.answers steps

/-- What a step leaves of the unread tokens `own`. -/
def Step.keep (own : List Token) : Step → List Token
  | next => own.tail
  | peek => own
  | takeAll => []

/-- What `steps` leave of the tokens `own` of a program. -/
def unread (own : List Token) (steps : List Step) : List Token := steps.foldl Step.keep own

/-- A `step` comes to what stands behind the unread tokens `own` if it takes all of them, or finds
none. -/
def Step.passes (own : List Token) (step : Step) : Bool := step = takeAll || own.isEmpty

/-- One of the steps comes to what stands behind the tokens `own`. -/
def reaches (own : List Token) : List Step → Bool
  | [] => false
  | step :: steps => step.passes own || reaches (step.keep own) steps

/-- A reader with the given unread tokens, behind which stands `last`: taking and looking find the
first of them, and taking all finds all of them. A look that succeeds takes nothing. -/
structure Holds (r : Reader) (left : List Token) (last : Except LexicalError Token) : Prop where
  next : r.next.1 = left.head?.elim last .ok
  peek : r.peek.1 = r.next.1
  takeAll : r.takeAll.1 = last.map (left ++ [·])
  next_peek : ∀ t, r.peek.1 = .ok t → r.peek.2.next.1 = .ok t
  later : ∀ t, r.peek.1 = .ok t → ∀ steps, r.peek.2.answers steps = r.answers steps

/-- No `steps` leave anything of no tokens. -/
theorem unread_nil (steps : List Step) : unread [] steps = [] := by
  induction steps with
  | nil => rfl
  | cons step steps ih => cases step <;> exact ih

/-- Once the `steps` have come behind the tokens `own` (`reaches`), there are none left. -/
theorem unread_of_reaches {own : List Token} {steps : List Step} (h : reaches own steps) :
    unread own steps = [] := by
  induction steps generalizing own with
  | nil => cases h
  | cons step steps ih =>
    rw [reaches, Step.passes, Bool.or_eq_true, Bool.or_eq_true, decide_eq_true_iff,
      List.isEmpty_iff] at h
    rcases h with (rfl | rfl) | h
    · exact unread_nil steps
    · exact unread_nil (step :: steps)
    · exact ih h

/-! ## What a reader has to deliver -/

/-- Unread tokens, whether an error is to come behind them, and the place of the end, which is that
of the error and of the end marker. -/
structure Feed where
  tokens : List Token
  broken : Bool
  stop : Position

namespace Feed

/-- What stands behind the tokens of the feed `f`: its error or the end marker, at its `stop`. -/
def last (f : Feed) : Except LexicalError Token :=
  if f.broken then .error ⟨f.stop⟩ else .ok ⟨.endOfInput, [], f.stop⟩

/-- The feed `f` when nothing is left of it but the end marker. -/
def spent (f : Feed) : Feed := ⟨[], false, f.stop⟩

/-- The answer to a step that is determined by what is left in the feed `f`, and what is left then.
-/
def perform (f : Feed) : Step → Answer × Feed
  | .next =>
    match f.tokens with
    | [] => (.one f.last, f.spent)
    | t :: ts => (.one (.ok t), { f with tokens := ts })
  | .peek =>
    match f.tokens with
    | [] => (.one f.last, f.spent)
    | t :: _ => (.one (.ok t), f)
  | .takeAll => (.all (f.last.map (f.tokens ++ [·])), f.spent)

/-- What a `step` leaves of a feed `f`. The error is gone when a step has come to it. -/
theorem perform_snd (f : Feed) (step : Step) :
    (f.perform step).2 =
      ⟨step.keep f.tokens, f.broken && !step.passes f.tokens, f.stop⟩ := by
  obtain ⟨tokens, broken, stop⟩ := f
  cases step <;> cases tokens <;> simp [perform, spent, Step.keep, Step.passes]

/-- The error of a feed `f` is the answer to a `step` that comes to it, and to no other. -/
theorem isError_perform (f : Feed) (step : Step) :
    (f.perform step).1.isError = (f.broken && step.passes f.tokens) := by
  obtain ⟨tokens, broken, stop⟩ := f
  cases broken <;> cases step <;> cases tokens <;> rfl

/-- Looking at a token `t` leaves the feed `f` as it is, and so does looking at the end marker. -/
theorem perform_peek_of_ok {f : Feed} {t : Token} (h : (f.perform .peek).1 = .one (.ok t)) :
    (f.perform .peek).2 = f := by
  obtain ⟨tokens, broken, stop⟩ := f
  cases tokens with
  | cons t ts => rfl
  | nil =>
    cases broken with
    | false => rfl
    | true => cases h

end Feed

end Reader

/-- The feed `f` of a cursor `c`: the tokens on the way to where the next reading comes to the end.
-/
def Cursor.Delivers (c : Cursor) (f : Reader.Feed) : Prop :=
  ∃ last : Cursor, c.Reads f.tokens last ∧ last.scan = (f.last, ⟨[], f.stop⟩)

namespace Reader

/-- The feed of a reader: that of its cursor, behind a token that has been looked at and is kept. -/
inductive Delivers : Reader → Feed → Prop where
  | behind {c : Cursor} {f : Feed} : c.Delivers f → Delivers ⟨c, none⟩ f
  | token {c : Cursor} {t : Token} {ts : List Token} {broken : Bool} {stop : Position} :
      t.kind ≠ .endOfInput → c.Delivers ⟨ts, broken, stop⟩ →
      Delivers ⟨c, some t⟩ ⟨t :: ts, broken, stop⟩
  | marker {stop : Position} :
      Delivers ⟨⟨[], stop⟩, some ⟨.endOfInput, [], stop⟩⟩ ⟨[], false, stop⟩

variable {r r' : Reader} {f : Feed}

/-- At the end of the program, at `stop`, a cursor delivers the end marker and nothing else. -/
theorem delivers_spent (stop : Position) : (Cursor.mk [] stop).Delivers ⟨[], false, stop⟩ :=
  ⟨_, .nil, rfl⟩

/-- The first token of a feed `f` is scanned first, and the others are delivered after it. Without
any, what stands behind them is scanned. -/
theorem scan_of_delivers {c : Cursor} (h : c.Delivers f) :
    (f.tokens = [] ∧ c.scan = (f.last, ⟨[], f.stop⟩)) ∨
      ∃ t ts c', f.tokens = t :: ts ∧ t.kind ≠ .endOfInput ∧ c.scan = (.ok t, c') ∧
        c'.Delivers { f with tokens := ts } := by
  obtain ⟨last, hreads, hlast⟩ := h
  obtain ⟨tokens, broken, stop⟩ := f
  cases hreads with
  | nil => exact .inl ⟨rfl, hlast⟩
  | @cons _ c' _ t ts hscan hkind hreads =>
    exact .inr ⟨t, ts, c', rfl, hkind, hscan, last, hreads, hlast⟩

/-- All tokens of a feed `f` are scanned, and then the end is reached. -/
theorem scanAll_of_delivers {c : Cursor} (h : c.Delivers f) :
    c.scanAll = (f.last.map (f.tokens ++ [·]), ⟨[], f.stop⟩) := by
  obtain ⟨tokens, broken, stop⟩ := f
  obtain ⟨last, hreads, hlast⟩ := h
  rw [hreads.scanAll]
  cases broken with
  | true =>
    have herror : last.scan = (.error ⟨stop⟩, ⟨[], stop⟩) := hlast
    rw [Cursor.scanAll_of_error herror]
    rfl
  | false =>
    have hmarker : last.scan = (.ok ⟨.endOfInput, [], stop⟩, ⟨[], stop⟩) := hlast
    rw [Cursor.scanAll_of_endOfInput hmarker rfl]
    rfl

/-- Taking a token is answered by the reader `r` from its feed `f`. -/
theorem next_of_delivers (h : r.Delivers f) :
    .one r.next.1 = (f.perform .next).1 ∧ r.next.2.Delivers (f.perform .next).2 := by
  cases h with
  | @behind c f hc =>
    obtain ⟨tokens, broken, stop⟩ := f
    have hnext : next ⟨c, none⟩ = (c.scan.1, ⟨c.scan.2, none⟩) := rfl
    rw [hnext]
    rcases scan_of_delivers hc with ⟨rfl, hscan⟩ | ⟨t, ts, c', rfl, -, hscan, hc'⟩
    · rw [hscan]
      exact ⟨rfl, .behind (delivers_spent stop)⟩
    · rw [hscan]
      exact ⟨rfl, .behind hc'⟩
  | token _ hc => exact ⟨rfl, .behind hc⟩
  | marker => exact ⟨rfl, .behind (delivers_spent _)⟩

/-- Looking at a token is answered by the reader `r` from its feed `f`. -/
theorem peek_of_delivers (h : r.Delivers f) :
    .one r.peek.1 = (f.perform .peek).1 ∧ r.peek.2.Delivers (f.perform .peek).2 := by
  cases h with
  | @behind c f hc =>
    obtain ⟨tokens, broken, stop⟩ := f
    have hpeek : peek ⟨c, none⟩ = (c.scan.1, ⟨c.scan.2, c.scan.1.toOption⟩) := rfl
    rw [hpeek]
    rcases scan_of_delivers hc with ⟨rfl, hscan⟩ | ⟨t, ts, c', rfl, hkind, hscan, hc'⟩
    · rw [hscan]
      refine ⟨rfl, ?_⟩
      -- What is behind the tokens is kept if it is the end marker, and not if it is an error.
      cases broken with
      | true => exact .behind (delivers_spent stop)
      | false => exact .marker
    · rw [hscan]
      exact ⟨rfl, .token hkind hc'⟩
  | token hkind hc => exact ⟨rfl, .token hkind hc⟩
  | marker => exact ⟨rfl, .marker⟩

/-- Taking all tokens is answered by the reader `r` from its feed `f`. -/
theorem takeAll_of_delivers (h : r.Delivers f) :
    .all r.takeAll.1 = (f.perform .takeAll).1 ∧ r.takeAll.2.Delivers (f.perform .takeAll).2 := by
  cases h with
  | @behind c f hc =>
    have htake : takeAll ⟨c, none⟩ = (c.scanAll.1, ⟨c.scanAll.2, none⟩) := rfl
    rw [htake, scanAll_of_delivers hc]
    exact ⟨rfl, .behind (delivers_spent _)⟩
  | @token c t ts broken stop hkind hc =>
    have htake : takeAll ⟨c, some t⟩ = (c.scanAll.1.map (t :: ·), ⟨c.scanAll.2, none⟩) :=
      if_neg hkind
    rw [htake, scanAll_of_delivers hc]
    refine ⟨?_, .behind (delivers_spent _)⟩
    cases broken <;> rfl
  | marker => exact ⟨rfl, .behind (delivers_spent _)⟩

/-- A `step` is answered by the reader `r` from its feed `f`, and leaves what it leaves of `f`. -/
theorem delivers_perform (h : r.Delivers f) (step : Step) :
    (r.perform step).1 = (f.perform step).1 ∧
      (r.perform step).2.Delivers (f.perform step).2 := by
  cases step with
  | next => exact next_of_delivers h
  | peek => exact peek_of_delivers h
  | takeAll => exact takeAll_of_delivers h

/-- Of a feed, `steps` leave what they leave of its tokens `own`, and its error unless they come to
it. -/
theorem delivers_after {own : List Token} {broken : Bool} {stop : Position}
    (h : r.Delivers ⟨own, broken, stop⟩) (steps : List Step) :
    (r.after steps).Delivers ⟨unread own steps, broken && !reaches own steps, stop⟩ := by
  -- By induction on the steps, each of which is answered from the feed.
  -- The steps after the first start from what it leaves, so the feed is general in the induction.
  induction steps generalizing r own broken with
  | nil =>
    rw [reaches, Bool.not_false, Bool.and_true]
    exact h
  | cons step steps ih =>
    have hnext := (delivers_perform h step).2
    rw [Feed.perform_snd] at hnext
    have hrest := ih hnext
    rw [Bool.and_assoc, ← Bool.not_or] at hrest
    exact hrest

/-- Readers `r` and `r'` with the same feed `f` answer the same to any `steps`. -/
theorem answers_eq_of_delivers (h : r.Delivers f) (h' : r'.Delivers f) (steps : List Step) :
    r.answers steps = r'.answers steps := by
  induction steps generalizing r r' f with
  | nil => rfl
  | cons step steps ih =>
    obtain ⟨hanswer, hnext⟩ := delivers_perform h step
    obtain ⟨hanswer', hnext'⟩ := delivers_perform h' step
    rw [answers, answers, hanswer, hanswer', ih hnext hnext']

/-- The error of a feed is met once, by the step that comes to it first, or not at all. -/
theorem countP_isError_of_delivers {own : List Token} {broken : Bool} {stop : Position}
    (h : r.Delivers ⟨own, broken, stop⟩) (steps : List Step) :
    (r.answers steps).countP Answer.isError = (broken && reaches own steps).toNat := by
  induction steps generalizing r own broken with
  | nil => simp [answers, reaches]
  | cons step steps ih =>
    obtain ⟨hanswer, hnext⟩ := delivers_perform h step
    rw [Feed.perform_snd] at hnext
    rw [answers, List.countP_cons, ih hnext, hanswer, Feed.isError_perform, reaches]
    cases broken <;> cases step.passes own <;> simp

/-- A reader `r` holds what its feed `f` has, in the sense of `Holds`. -/
theorem holds_of_delivers (h : r.Delivers f) : r.Holds f.tokens f.last := by
  have hnext := (next_of_delivers h).1
  obtain ⟨hpeek, hlooked⟩ := peek_of_delivers h
  have hsame : (f.perform .peek).1 = (f.perform .next).1 := by
    unfold Feed.perform
    cases f.tokens <;> rfl
  -- A look that succeeds leaves the feed, and with it all that is answered from it.
  have hkept : ∀ t, r.peek.1 = .ok t → r.peek.2.Delivers f := by
    intro t ht
    rw [ht] at hpeek
    rwa [Feed.perform_peek_of_ok hpeek.symm] at hlooked
  have hpeek_eq : r.peek.1 = r.next.1 := by
    rw [← Answer.one.injEq, hpeek, hnext, hsame]
  constructor
  case next =>
    obtain ⟨tokens, broken, stop⟩ := f
    cases tokens <;> exact Answer.one.inj hnext
  case peek => exact hpeek_eq
  case takeAll => exact Answer.all.inj (takeAll_of_delivers h).1
  case next_peek =>
    intro t ht
    have hagain := (next_of_delivers (hkept t ht)).1
    rw [← hnext, Answer.one.injEq] at hagain
    rw [hagain, ← hpeek_eq, ht]
  case later =>
    intro t ht steps
    exact answers_eq_of_delivers (hkept t ht) h steps

/-! ## Step by step and all at once -/

variable {source : Text}

/-- The feed of a reader at the start of a program that is read has the tokens `own` of the program,
and no error. -/
theorem exists_delivers_of_ok {ts : List Token} (h : Token.ofSource source = .ok ts) :
    ∃ own, ts = own ++ [⟨.endOfInput, [], Position.start.after source⟩] ∧
      (∀ t ∈ own, t.kind ≠ .endOfInput) ∧
      (ofSource source).Delivers ⟨own, false, Position.start.after source⟩ := by
  obtain ⟨own, rfl, hown, -⟩ := Token.exists_eq_of_ofSource h
  obtain ⟨last, hreads, hlast⟩ := Token.exists_reads_of_ok h
  exact ⟨own, rfl, hown, .behind ⟨last, hreads, hlast⟩⟩

/-- Reading tokens step by step finds what reading all of them at once finds.

If all tokens of a program are read at once, then after any steps the reader holds those that the
steps have left, with the end marker behind them. If a string literal is not closed, then it holds
those in front of the literal that the steps have left; behind them is the error until a step comes
to it, which is the only step that fails, and the end marker at the end of the program after
that. -/
theorem steps_agree (source : Text) :
    let marker : Token := ⟨.endOfInput, [], Position.start.after source⟩
    (∀ ts, Token.ofSource source = .ok ts → ∃ own, ts = own ++ [marker] ∧
      (∀ t ∈ own, t.kind ≠ .endOfInput) ∧
      ∀ steps, ((ofSource source).after steps).Holds (unread own steps) (.ok marker)) ∧
    (∀ e, Token.ofSource source = .error e → e.position = marker.position ∧
      ∃ before body own, IsBroken source before body own ∧ (∀ t ∈ own, t.kind ≠ .endOfInput) ∧
        ∀ steps,
          ((ofSource source).answers steps).countP Answer.isError =
            (reaches own steps).toNat ∧
          (reaches own steps = false →
            ((ofSource source).after steps).Holds (unread own steps) (.error e)) ∧
          (reaches own steps →
            ((ofSource source).after steps).Holds [] (.ok marker))) := by
  intro marker
  constructor
  · intro ts h
    obtain ⟨own, hts, hown, hfeed⟩ := exists_delivers_of_ok h
    exact ⟨own, hts, hown, fun steps => holds_of_delivers (delivers_after hfeed steps)⟩
  · intro e h
    obtain ⟨before, body, own, last, hbroken, rfl, hreads, hlast⟩ :=
      Token.exists_isBroken_of_error h
    have hfeed : (ofSource source).Delivers ⟨own, true, marker.position⟩ :=
      .behind ⟨last, hreads, hlast⟩
    refine ⟨rfl, before, body, own, hbroken, hreads.kind_ne, fun steps => ?_⟩
    -- Whether the error is still to come depends on whether a step has come to it.
    have hholds := holds_of_delivers (delivers_after hfeed steps)
    refine ⟨countP_isError_of_delivers hfeed steps, ?_, ?_⟩
    · intro hreaches
      rw [hreaches] at hholds
      exact hholds
    · intro hreaches
      rw [hreaches, unread_of_reaches hreaches] at hholds
      exact hholds

/-- A program of two words, of which the first is looked at twice and taken, and a program that is
broken behind its word, before anything is asked for and after all has been. -/
theorem steps_agree_up :
    let marker : Token := ⟨.endOfInput, [], ⟨1, 6⟩⟩
    (Token.ofSource (ascii "pen up") =
        .ok [⟨.keyword, ascii "pen", ⟨1, 0⟩⟩, ⟨.keyword, ascii "up", ⟨1, 4⟩⟩, marker] ∧
      ((ofSource (ascii "pen up")).after [.peek, .peek, .next]).Holds
        [⟨.keyword, ascii "up", ⟨1, 4⟩⟩] (.ok marker)) ∧
    Token.ofSource (ascii "up \"#1") = .error ⟨⟨1, 6⟩⟩ ∧
      (∃ own, (ofSource (ascii "up \"#1")).Holds own (.error ⟨⟨1, 6⟩⟩)) ∧
      ((ofSource (ascii "up \"#1")).after [.takeAll]).Holds [] (.ok marker) := by
  intro marker
  have hpen : Token.ofSource (ascii "pen up") =
      .ok ([⟨.keyword, ascii "pen", ⟨1, 0⟩⟩, ⟨.keyword, ascii "up", ⟨1, 4⟩⟩] ++ [marker]) := by
    decide +kernel
  have hbroken : Token.ofSource (ascii "up \"#1") = .error ⟨⟨1, 6⟩⟩ := by decide +kernel
  obtain ⟨own, hown, -, hholds⟩ := (steps_agree (ascii "pen up")).1 _ hpen
  -- The tokens before the end marker are the two words, as the marker is the last of both lists.
  obtain ⟨rfl, -⟩ := List.append_inj' hown rfl
  obtain ⟨-, before, body, own', -, -, hsteps⟩ := (steps_agree (ascii "up \"#1")).2 _ hbroken
  exact ⟨⟨hpen, hholds [.peek, .peek, .next]⟩, hbroken, ⟨own', (hsteps []).2.1 rfl⟩,
    (hsteps [.takeAll]).2.2 rfl⟩

/-! ## The end as the cursor sees it -/

/-- The `steps` without the looks among them. -/
def settled (steps : List Step) : List Step := steps.filter (· ≠ .peek)

/-- The reader after one more `step` is the one that this step leaves. -/
theorem after_concat (r : Reader) (steps : List Step) (step : Step) :
    r.after (steps ++ [step]) = ((r.after steps).perform step).2 := by
  rw [after, List.foldl_append]
  rfl

/-- A look goes as far as taking does, and keeps what it finds, if that is a token. -/
theorem peek_snd (r : Reader) : r.peek.2 = ⟨r.next.2.cursor, r.next.1.toOption⟩ := rfl

/-- A look that succeeds keeps its token `t`. -/
theorem peek_snd_of_ok {r : Reader} {t : Token} (h : r.next.1 = .ok t) :
    r.peek.2 = ⟨r.next.2.cursor, some t⟩ := by
  rw [peek_snd, h]
  rfl

/-- Taking a token keeps nothing in store. -/
theorem next_snd (r : Reader) : r.next.2 = ⟨r.next.2.cursor, none⟩ := by
  unfold next
  split <;> rfl

/-- Taking all tokens keeps nothing in store. -/
theorem takeAll_snd (r : Reader) : r.takeAll.2 = ⟨r.takeAll.2.cursor, none⟩ := by
  unfold takeAll
  split
  · split <;> rfl
  · rfl

/-- A reader that is `atEnd` and has nothing in store (`hahead`) finds the end marker. -/
theorem next_of_atEnd {r : Reader} (h : r.atEnd) (hahead : r.ahead = none) :
    ∃ t, r.next.1 = .ok t ∧ t.kind = .endOfInput := by
  obtain ⟨⟨rest, p⟩, ahead⟩ := r
  obtain rfl : ahead = none := hahead
  obtain rfl : rest = [] := List.isEmpty_iff.mp h
  exact ⟨⟨.endOfInput, [], p⟩, rfl, rfl⟩

/-- A token `t` is in store only after a look, which has found it. -/
theorem exists_peek_of_ahead {steps : List Step} {t : Token}
    (h : ((ofSource source).after steps).ahead = some t) :
    ∃ earlier, steps = earlier ++ [.peek] ∧ ((ofSource source).after earlier).next.1 = .ok t := by
  rcases List.eq_nil_or_concat' steps with rfl | ⟨earlier, step, rfl⟩
  · cases h
  · rw [after_concat] at h
    -- Taking keeps nothing in store, so the last step is a look.
    cases step with
    | next =>
      rw [perform, next_snd] at h
      cases h
    | takeAll =>
      rw [perform, takeAll_snd] at h
      cases h
    | peek =>
      rw [perform, peek_snd] at h
      refine ⟨earlier, rfl, ?_⟩
      cases hnext : ((ofSource source).after earlier).next.1 with
      | error e => simp [hnext, Except.toOption] at h
      | ok u =>
        rw [hnext] at h
        exact congrArg Except.ok (Option.some.inj h)

/-- A look that succeeds makes no difference to where the `step` after it leads. -/
theorem perform_peek_snd {r : Reader} {t : Token} (h : r.next.1 = .ok t) (step : Step) :
    (r.peek.2.perform step).2 = (r.perform step).2 := by
  have hlooked := peek_snd_of_ok h
  cases step with
  | next =>
    rw [perform, perform, hlooked, next_snd r]
    rfl
  | peek =>
    rw [perform, perform, hlooked]
    rfl
  | takeAll =>
    obtain ⟨cursor, ahead⟩ := r
    cases ahead with
    | some u =>
      -- The token has been looked at before, so the reader is as it was.
      obtain rfl : u = t := Except.ok.inj h
      rfl
    | none =>
      -- The look scans what taking all scans first, and the rest is scanned from there in both.
      have hscan : cursor.scan = (.ok t, cursor.scan.2) := Prod.ext h rfl
      rw [hlooked]
      show (takeAll ⟨cursor.scan.2, some t⟩).2 = ⟨cursor.scanAll.2, none⟩
      by_cases hkind : t.kind = .endOfInput
      · have htake : takeAll ⟨cursor.scan.2, some t⟩ = (.ok [t], ⟨cursor.scan.2, none⟩) :=
          if_pos hkind
        rw [htake, Cursor.scanAll_of_endOfInput hscan hkind]
      · have htake : takeAll ⟨cursor.scan.2, some t⟩ =
            (cursor.scan.2.scanAll.1.map (t :: ·), ⟨cursor.scan.2.scanAll.2, none⟩) :=
          if_neg hkind
        rw [htake, Cursor.scanAll_of_token hscan hkind]

/-- A look is not among the `settled` steps. -/
theorem settled_concat_peek (steps : List Step) : settled (steps ++ [.peek]) = settled steps := by
  simp [settled]

/-- Any `step` other than a look is among the `settled` steps. -/
theorem settled_concat_of_ne {step : Step} (h : step ≠ .peek) (steps : List Step) :
    settled (steps ++ [step]) = settled steps ++ [step] := by
  simp [settled, h]

/-- In a program that is not broken, the looks among `steps` make no difference to where the `step`
after them leads. -/
theorem after_concat_settled {ts : List Token} (h : Token.ofSource source = .ok ts)
    (steps : List Step) (step : Step) :
    (ofSource source).after (steps ++ [step]) =
      (((ofSource source).after (settled steps)).perform step).2 := by
  rw [after_concat]
  -- The last of the steps is taken off, since only a look that nothing follows is left to absorb.
  induction steps using List.reverseRecOn generalizing step with
  | nil => rfl
  | append_singleton steps last ih =>
    rw [after_concat, ih last]
    obtain ⟨own, -, -, hfeed⟩ := exists_delivers_of_ok h
    obtain ⟨t, ht⟩ : ∃ t, ((ofSource source).after (settled steps)).next.1 = .ok t := by
      have hholds := holds_of_delivers (delivers_after hfeed (settled steps))
      rw [hholds.next]
      cases unread own (settled steps) with
      | nil => exact ⟨_, rfl⟩
      | cons t ts => exact ⟨t, rfl⟩
    by_cases hpeek : last = .peek
    · subst hpeek
      rw [settled_concat_peek]
      exact perform_peek_snd ht step
    · rw [settled_concat_of_ne hpeek, after_concat]

/-- A reader that is asked for the end says yes too early exactly if the last step was a look at a
token that stands at the end of the program. In a program that is not broken the looks before the
last step make no difference to the answer; a look that is the last step makes it what it is once
the token has been taken. -/
theorem atEnd_unless_peeked (source : Text) (steps : List Step) :
    let r := (ofSource source).after steps
    ((r.atEnd ∧ ¬ ∃ t, r.next.1 = .ok t ∧ t.kind = .endOfInput) ↔
      ∃ earlier t, steps = earlier ++ [.peek] ∧
        ((ofSource source).after earlier).next.1 = .ok t ∧ t.kind ≠ .endOfInput ∧
        ((ofSource source).after earlier).next.2.atEnd) ∧
    (∀ ts, Token.ofSource source = .ok ts →
      (steps.getLast? ≠ some .peek → r.atEnd = ((ofSource source).after (settled steps)).atEnd) ∧
      (steps.getLast? = some .peek →
        r.atEnd = ((ofSource source).after (settled steps)).next.2.atEnd)) := by
  intro r
  have hlooked : ∀ {earlier t}, steps = earlier ++ [.peek] →
      ((ofSource source).after earlier).next.1 = .ok t →
      r = ⟨((ofSource source).after earlier).next.2.cursor, some t⟩ := by
    rintro earlier t rfl hnext
    exact (after_concat _ _ _).trans (peek_snd_of_ok hnext)
  refine ⟨⟨?_, ?_⟩, ?_⟩
  · rintro ⟨hend, hhidden⟩
    -- With nothing in store the end is what it seems to be, so a token is in store, and a look has
    -- found it.
    cases hahead : r.ahead with
    | none => exact absurd (next_of_atEnd hend hahead) hhidden
    | some t =>
      obtain ⟨earlier, hsteps, hnext⟩ := exists_peek_of_ahead hahead
      rw [hlooked hsteps hnext] at hend hhidden
      exact ⟨earlier, t, hsteps, hnext, fun hkind => hhidden ⟨t, rfl, hkind⟩, hend⟩
  · rintro ⟨earlier, t, hsteps, hnext, hkind, hend⟩
    rw [hlooked hsteps hnext]
    refine ⟨hend, ?_⟩
    rintro ⟨u, hu, hukind⟩
    obtain rfl : t = u := Except.ok.inj hu
    exact hkind hukind
  · intro ts h
    -- The looks before the last step make no difference, so only the last step is left to tell
    -- apart.
    rcases List.eq_nil_or_concat' steps with rfl | ⟨earlier, step, rfl⟩
    · exact ⟨fun _ => rfl, fun hlast => by cases hlast⟩
    · have hr : r = (((ofSource source).after (settled earlier)).perform step).2 :=
        after_concat_settled h earlier step
      rw [List.getLast?_concat, hr]
      constructor
      · -- A last step that is no look is among the settled ones.
        intro hstep
        rw [settled_concat_of_ne (by simpa using hstep), after_concat]
      · intro hstep
        obtain rfl := Option.some.inj hstep
        rw [settled_concat_peek]
        rfl

/-- The last word of a program is looked at, and the reader is at the end too early. -/
theorem atEnd_of_look_at_clear :
    let s := ofSource (ascii "clear")
    Token.ofSource (ascii "clear") =
        .ok [⟨.keyword, ascii "clear", ⟨1, 0⟩⟩, ⟨.endOfInput, [], ⟨1, 5⟩⟩] ∧
      ((s.after [.peek]).atEnd ∧
        ¬ ∃ t, (s.after [.peek]).next.1 = .ok t ∧ t.kind = .endOfInput) ∧
      (s.after [.peek]).atEnd = (s.after []).next.2.atEnd := by
  intro s
  have hread : Token.ofSource (ascii "clear") =
      .ok [⟨.keyword, ascii "clear", ⟨1, 0⟩⟩, ⟨.endOfInput, [], ⟨1, 5⟩⟩] := by decide +kernel
  have hclear : (s.after []).next.1 = .ok ⟨.keyword, ascii "clear", ⟨1, 0⟩⟩ := by
    decide +kernel
  have hend : (s.after []).next.2.atEnd := by decide +kernel
  obtain ⟨hlaw, hsettled⟩ := atEnd_unless_peeked (ascii "clear") [.peek]
  exact ⟨hread, hlaw.mpr ⟨[], _, rfl, hclear, by decide, hend⟩, (hsettled _ hread).2 rfl⟩

/-- A look changes the answer from no to yes, and the next step still takes a token. -/
theorem atEnd_before_clear :
    let s := ofSource (ascii "clear")
    (s.after []).atEnd = false ∧ (s.after [.peek]).atEnd ∧
      ∃ t, (s.after [.peek]).next.1 = .ok t ∧ t.kind = .keyword := by
  intro s
  have hclear : (s.after [.peek]).next.1 = .ok ⟨.keyword, ascii "clear", ⟨1, 0⟩⟩ := by
    decide +kernel
  exact ⟨by decide, by decide +kernel, _, hclear, rfl⟩

end Reader

end Sketch
