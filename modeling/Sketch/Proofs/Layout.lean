import Mathlib.Data.List.DropRight
import Sketch.Token.Reader

/-!
# What stands between tokens, and where

White space and comments between tokens are a `Layout`; after the last token a comment may also be
left without its line feed (`EndLayout`). `Cursor.exists_skips` shows that a cursor skips such a
layout, and no less of it than there is.

A place is found by counting (`Position.Counts`). Line and column are words, which hold the counts
in front of every byte of a program below `2^32` bytes (`Position.counts_before`). At the end of
such a program they do too, unless it is `2^32 - 1` line feeds (`Position.counts_end`).
-/

namespace Sketch

/-! ## Layout -/

/-- White space and comments, each comment up to and with the line feed that ends its line. -/
inductive Layout : Text → Prop where
  | nil : Layout []
  | space {b : Byte} {t : Text} : b.isSpace → Layout t → Layout (b :: t)
  | comment {body t : Text} : Byte.newline ∉ body → Layout t →
      Layout (Byte.hash :: body ++ Byte.newline :: t)

/-- What a program can end with: a layout, or one with a last comment that no line feed ends. -/
inductive EndLayout : Text → Prop where
  | closed {t : Text} : Layout t → EndLayout t
  | pending {t body : Text} : Layout t → Byte.newline ∉ body → EndLayout (t ++ Byte.hash :: body)

/-- A white space byte `b` in front of a text that a program can end with gives another such text.
-/
theorem EndLayout.space {b : Byte} {t : Text} (hb : b.isSpace) (h : EndLayout t) :
    EndLayout (b :: t) := by
  cases h with
  | closed h => exact .closed (.space hb h)
  | pending h hbody => exact .pending (.space hb h) hbody

/-- A comment with `body`, ended by its line feed, in front of a text that a program can end with
gives another such text. -/
theorem EndLayout.comment {body t : Text} (hbody : Byte.newline ∉ body) (h : EndLayout t) :
    EndLayout (Byte.hash :: body ++ Byte.newline :: t) := by
  cases h with
  | closed h => exact .closed (.comment hbody h)
  | @pending t body' h hbody' =>
    have hsplit : Byte.hash :: body ++ Byte.newline :: (t ++ Byte.hash :: body') =
        (Byte.hash :: body ++ Byte.newline :: t) ++ Byte.hash :: body' := by
      simp
    rw [hsplit]
    exact .pending (.comment hbody h) hbody'

namespace Cursor

/-- Inside of a comment, `afterLayout` skips to the end of a text `body` without a line feed, and
the cursor stands after it. -/
theorem afterLayout_open {body : Text} (h : Byte.newline ∉ body) (p : Position) :
    afterLayout true p body = ⟨[], p.after body⟩ := by
  induction body generalizing p with
  | nil => rfl
  | cons b body ih =>
    have hb : (b != Byte.newline) = true := bne_iff_ne.mpr (List.ne_of_not_mem_cons h).symm
    have hbody : Byte.newline ∉ body := List.not_mem_of_not_mem_cons h
    rw [afterLayout, if_pos rfl, hb, ih hbody, Position.after_cons]

/-- Inside of a comment, `afterLayout` skips the `body` and the line feed that ends it, and goes on
outside with the `rest`. -/
theorem afterLayout_comment {body : Text} (h : Byte.newline ∉ body) (p : Position) (rest : Text) :
    afterLayout true p (body ++ Byte.newline :: rest) =
      afterLayout false (p.after (body ++ [Byte.newline])) rest := by
  induction body generalizing p with
  | nil => rfl
  | cons b body ih =>
    have hb : (b != Byte.newline) = true := bne_iff_ne.mpr (List.ne_of_not_mem_cons h).symm
    have hbody : Byte.newline ∉ body := List.not_mem_of_not_mem_cons h
    rw [List.cons_append, afterLayout, if_pos rfl, hb, ih hbody, List.cons_append,
      Position.after_cons]

/-- A cursor `c` that has skipped the layout `gap` of `t` from the place `p` on: `t` is `gap` and
what is left, the place of `c` is the one after `gap`, and no more layout follows. A `gap` at the
end may hold a comment that no line feed ends. -/
structure Skips (p : Position) (t : Text) (c : Cursor) (gap : Text) : Prop where
  text : t = gap ++ c.rest
  place : c.position = p.after gap
  layout : c.rest ≠ [] → Layout gap
  layout_end : c.rest = [] → EndLayout gap
  head : ∀ b ∈ c.rest.head?, b.isSpace = false ∧ b ≠ Byte.hash

/-- Layout `front` before what `h` skips is skipped with it. That `front` is layout is given as two
implications, one for a `gap` inside the text and one for a `gap` at its end. -/
theorem Skips.prepend {p : Position} {t gap : Text} {c : Cursor} (front : Text)
    (h : Skips (p.after front) t c gap) (hlayout : Layout gap → Layout (front ++ gap))
    (hend : EndLayout gap → EndLayout (front ++ gap)) :
    Skips p (front ++ t) c (front ++ gap) where
  text := by rw [h.text, List.append_assoc]
  place := by rw [h.place, Position.after_append]
  layout hne := hlayout (h.layout hne)
  layout_end hnil := hend (h.layout_end hnil)
  head := h.head

/-- `afterLayout` from `p` on `t` stops exactly behind the layout at the head of `t`: there is a
`gap` with `Skips`. -/
theorem exists_skips (p : Position) (t : Text) : ∃ gap, Skips p t (afterLayout false p t) gap := by
  -- A comment is skipped as a whole, so the induction is on the length and not on the bytes.
  induction hn : t.length using Nat.strong_induction_on generalizing p t with
  | h n ih =>
    subst hn
    match t with
    | [] => exact ⟨[], rfl, rfl, fun _ => .nil, fun _ => .closed .nil, by simp [afterLayout]⟩
    | b :: rest =>
      by_cases hspace : b.isSpace
      · have hskip : afterLayout false p (b :: rest) = afterLayout false (p.next b) rest := by
          simp [afterLayout, hspace]
        obtain ⟨gap, h⟩ := ih rest.length (by simp) (p.next b) rest rfl
        rw [hskip]
        exact ⟨b :: gap, h.prepend [b] (.space hspace) (.space hspace)⟩
      · by_cases hhash : b = Byte.hash
        · subst hhash
          have hskip : afterLayout false p (Byte.hash :: rest) =
              afterLayout true (p.next Byte.hash) rest := by
            simp [afterLayout, hspace]
          rw [hskip]
          -- The comment ends at the first line feed after it, or else at the end of the text.
          by_cases hline : Byte.newline ∈ rest
          · obtain ⟨body, rest, rfl, hbody⟩ := List.eq_append_cons_of_mem hline
            obtain ⟨gap, h⟩ := ih rest.length (by simp; omega)
              (p.after (Byte.hash :: body ++ [Byte.newline])) rest rfl
            have hgap := h.prepend (p := p) (Byte.hash :: body ++ [Byte.newline])
              (by simpa using Layout.comment hbody) (by simpa using EndLayout.comment hbody)
            rw [afterLayout_comment hbody]
            exact ⟨_, by simpa using hgap⟩
          · rw [afterLayout_open hline]
            exact ⟨Byte.hash :: rest, by simp, rfl, by simp, fun _ => .pending .nil hline, by simp⟩
        · have hskip : afterLayout false p (b :: rest) = ⟨b :: rest, p⟩ := by
            simp [afterLayout, hspace, hhash]
          rw [hskip]
          exact ⟨[], rfl, rfl, fun _ => .nil, by simp, by simpa [hhash] using hspace⟩

end Cursor

/-! ## Places -/

/-- How many bytes stand after the last line feed of the text `t`, or how many it has if there is
none. -/
def Text.column (t : Text) : Nat := (t.rtakeWhile (· != Byte.newline)).length

/-- A text that ends in a line feed has `Text.column` zero, since no byte stands after it. -/
theorem Text.column_append_newline (t : Text) : Text.column (t ++ [Byte.newline]) = 0 := by
  rw [Text.column, List.rtakeWhile_concat_neg _ _ _ (by simp), List.length_nil]

namespace Position

/-- The place after the bytes `before`, in words: its line is one more than the line feeds of
`before`, and its column is `Text.column before`, both modulo `2^32`. -/
theorem start_after (before : Text) :
    start.after before =
      ⟨.ofNat (1 + before.count Byte.newline), .ofNat (Text.column before)⟩ := by
  -- The last byte is taken off, since it decides whether a new line starts.
  induction before using List.reverseRecOn with
  | nil => rfl
  | append_singleton before b ih =>
    rw [after_append, ih, after_cons, after_nil, next, List.count_append]
    by_cases hb : b = Byte.newline
    · subst hb
      rw [if_pos (beq_self_eq_true _), Text.column_append_newline, List.count_singleton_self,
        ← Nat.add_assoc, UInt32.ofNat_add (1 + before.count Byte.newline)]
      rfl
    · have hcolumn : Text.column (before ++ [b]) = Text.column before + 1 := by
        rw [Text.column, List.rtakeWhile_concat_pos _ _ _ (by simpa using hb), List.length_append]
        rfl
      have hcount : [b].count Byte.newline = 0 := List.count_eq_zero.mpr (by simpa using Ne.symm hb)
      rw [if_neg (by simpa using hb), hcolumn, hcount, Nat.add_zero,
        UInt32.ofNat_add (Text.column before)]
      rfl

/-- The place `p` is the one that counting finds after the text `before`: its line is one more than
the line feeds of `before`, and its column is `Text.column before`. Unlike in `start_after` these
are natural numbers, so no word has wrapped around. -/
structure Counts (p : Position) (before : Text) : Prop where
  line : p.line.toNat = 1 + before.count Byte.newline
  column : p.column.toNat = Text.column before

/-- The place after `before` holds the counts of `before` if both fit in a word: `h` bounds the
lines and `hlength` bounds the column. -/
theorem counts_start_after {before : Text} (h : 1 + before.count Byte.newline < UInt32.size)
    (hlength : before.length < UInt32.size) : (start.after before).Counts before := by
  have hle : Text.column before ≤ before.length := (List.rtakeWhile_suffix _ _).length_le
  have hcolumn : Text.column before < UInt32.size := by omega
  rw [start_after]
  exact ⟨UInt32.toNat_ofNat_of_lt h, UInt32.toNat_ofNat_of_lt hcolumn⟩

/-- The place in front of a byte holds the counts of the bytes `before` it, in a program below
`2^32` bytes. -/
theorem counts_before {before : Text} (h : before.length + 1 < UInt32.size) :
    (start.after before).Counts before := by
  have hle : before.count Byte.newline ≤ before.length := List.count_le_length
  exact counts_start_after (by omega) (by omega)

/-- The place at the end of a `source` below `2^32` bytes holds its counts. Its line wraps around
only if `source` is `2^32 - 1` line feeds and nothing else. -/
theorem counts_end {source : Text} (h : source.length < UInt32.size) :
    (start.after source).Counts source ∨
      source = List.replicate (UInt32.size - 1) Byte.newline := by
  -- If the line feeds are too many for the word, no byte is anything else.
  -- Only a text of line feeds alone has as many of them as it has bytes.
  by_cases hlines : 1 + source.count Byte.newline < UInt32.size
  · exact .inl (counts_start_after hlines h)
  · right
    have hle : source.count Byte.newline ≤ source.length := List.count_le_length
    have hall : source.count Byte.newline = source.length := by omega
    rw [List.eq_replicate_iff]
    exact ⟨by omega, fun b hb => (List.count_eq_length.mp hall b hb).symm⟩

end Position

end Sketch
