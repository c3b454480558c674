import Mathlib.Data.List.Infix
import Sketch.CommandLine.Files

/-!
# What writing a file changes

`FileTree.wrote_of_write?` shows that a file that was written is read through every path that leads
to it, and that every other path is read as before. Paths lead where they led because writing makes
no directories: the directory of the new file was there before (`FileTree.isDirectory_dropLast`),
and with it all those above it.
-/

namespace Sketch.FileTree

variable {t t' : FileTree} {place other : List Text} {content : Text}

/-! ## Directories -/

/-- A `place` is a directory if it leads to a file, or if it is the working directory. -/
theorem isDirectory_below_iff : t.isDirectory (.below place) ↔
    place = [] ∨ ∃ other ∈ t.files.map Prod.fst, place <+: other ∧ place ≠ other := by
  simp [isDirectory, List.isPrefixOf_iff_prefix]

/-- What stands above a directory, as `other` does, is a directory. -/
theorem isDirectory_above (h : t.isDirectory (.below place)) (hleads : other <+: place) :
    t.isDirectory (.below other) := by
  rw [isDirectory_below_iff] at h ⊢
  rcases h with rfl | ⟨file, hfile, hplace, hne⟩
  · exact .inl (List.prefix_nil.mp hleads)
  · refine .inr ⟨file, hfile, hleads.trans hplace, ?_⟩
    rintro rfl
    exact hne (hplace.eq_of_length_le hleads.length_le)

/-- The places of `files` after one more was put among them are those from before, and the `place`
that it was put at. -/
theorem mem_put {files : List (List Text × Text)} :
    other ∈ (put place content files).map Prod.fst ↔
      other = place ∨ other ∈ files.map Prod.fst := by
  induction files with
  | nil => simp [put]
  | cons file files ih =>
    obtain ⟨first, old⟩ := file
    rw [put]
    split
    case isTrue hfirst =>
      subst hfirst
      simp
    case isFalse =>
      rw [List.map_cons, List.mem_cons, ih, List.map_cons, List.mem_cons]
      exact or_left_comm

/-- A file at a `place` in a directory (`h`) makes no new directories, and takes none away. -/
theorem isDirectory_insert (h : t.isDirectory (.below place.dropLast)) (spot : Spot) :
    (t.insert place content).isDirectory spot = t.isDirectory spot := by
  cases spot with
  | above => rfl
  | below other =>
    rw [Bool.eq_iff_iff, isDirectory_below_iff, isDirectory_below_iff]
    simp only [insert, mem_put]
    constructor
    · rintro (hroot | ⟨file, rfl | hfile, hleads, hne⟩)
      · exact .inl hroot
      · -- What leads to the new file leads to its directory.
        obtain ⟨rest, rfl⟩ := hleads
        have hrest : rest ≠ [] := by
          rintro rfl
          exact hne (List.append_nil other).symm
        rw [List.dropLast_append_of_ne_nil hrest] at h
        exact isDirectory_below_iff.mp (isDirectory_above h (List.prefix_append _ _))
      · exact .inr ⟨file, hfile, hleads, hne⟩
    · rintro (hroot | ⟨file, hfile, hleads, hne⟩)
      · exact .inl hroot
      · exact .inr ⟨file, .inr hfile, hleads, hne⟩

/-! ## Paths -/

/-- Paths lead where they led as long as the directories of the trees `t` and `t'` are the same. -/
theorem resolve_congr (h : ∀ spot, t'.isDirectory spot = t.isDirectory spot) (path : Text) :
    t'.resolve path = t.resolve path := by
  have henter : t'.enter = t.enter := by
    funext spot component
    simp only [enter, h]
  simp only [resolve, henter]

/-- The spot is a directory of the tree `t`, or something may be there in a directory. -/
def IsPlaced (t : FileTree) : Spot → Prop
  | .above => True
  | .below place => t.isDirectory (.below place) ∨ t.isDirectory (.below place.dropLast)

/-- A `component` leads from a directory to what is in it, or above it. -/
theorem isPlaced_of_enter {spot spot' : Spot} {component : Text}
    (h : t.enter spot component = some spot') : t.IsPlaced spot' := by
  unfold enter at h
  split at h
  case isTrue => cases h
  case isFalse hpassable =>
    obtain ⟨hdirectory, -⟩ :
        t.isDirectory spot ∧ component.length ≤ Path.maxComponentLength := by
      simpa using hpassable
    split at h
    case isTrue =>
      obtain rfl := Option.some.inj h
      -- The component may be the way to stay, to go up, or to something in the directory.
      cases spot with
      | above => trivial
      | below place => exact .inl hdirectory
    case isFalse =>
      cases spot with
      | above =>
        obtain ⟨-, habove⟩ := Option.ite_none_right_eq_some.mp h
        obtain rfl := Option.some.inj habove
        trivial
      | below place =>
        simp only at h
        split at h
        · -- The component names something in the directory.
          obtain rfl := Option.some.inj h
          refine .inr ?_
          rwa [List.dropLast_concat]
        · split at h
          · obtain rfl := Option.some.inj h
            trivial
          · obtain rfl := Option.some.inj h
            exact .inl (isDirectory_above hdirectory (List.dropLast_prefix place))

/-- Some `components` lead from a directory to what is in some directory, by induction over them. -/
theorem isPlaced_of_foldlM {spot spot' : Spot} {components : List Text} (hspot : t.IsPlaced spot)
    (h : components.foldlM t.enter spot = some spot') : t.IsPlaced spot' := by
  induction components generalizing spot with
  | nil =>
    obtain rfl := Option.some.inj h
    exact hspot
  | cons component components ih =>
    rw [List.foldlM_cons] at h
    obtain ⟨next, hnext, hrest⟩ := Option.bind_eq_some_iff.mp h
    exact ih (isPlaced_of_enter hnext) hrest

/-- What is no directory (`hfile`) stands in one, if a `path` leads to it. -/
theorem isDirectory_dropLast {path : Text} (h : t.resolve path = some (.below place))
    (hfile : ¬ t.isDirectory (.below place)) : t.isDirectory (.below place.dropLast) := by
  unfold resolve at h
  split at h
  · cases h
  · have hstart : t.IsPlaced
        (if path.head? = some Byte.slash then .above else .below []) := by
      split
      · trivial
      · exact .inl rfl
    exact (isPlaced_of_foldlM hstart h).resolve_left hfile

/-! ## Writing -/

/-- The `path` can be written in the tree `t`: it leads to a place where there is no directory. -/
def IsWritable (t : FileTree) (path : Text) : Prop :=
  ∃ place, t.resolve path = some (.below place) ∧ ¬ t.isDirectory (.below place)

/-- The second tree is the first one with a file at the place that the path leads to. The file is
read through every path that leads there, and everything else is read as before. -/
structure Wrote (t : FileTree) (path content : Text) (t' : FileTree) : Prop where
  lookup : ∀ place, t'.lookup place =
    if t.resolve path = some (.below place) then some content else t.lookup place
  read : ∀ other, t'.read other =
    if t.resolve other = t.resolve path then .content content else t.read other

/-- Writing to a `path` succeeds if it can be written, and then there is a file with the `content`
at its place. -/
theorem write?_eq_some_iff {path : Text} : t.write? path content = some t' ↔
    ∃ place, t.resolve path = some (.below place) ∧ ¬ t.isDirectory (.below place) ∧
      t' = t.insert place content := by
  unfold write?
  split
  case h_1 place hresolve =>
    simp only [hresolve, Option.some.injEq, Spot.below.injEq, exists_eq_left']
    split
    case isTrue hdirectory => simp [hdirectory]
    case isFalse hfile => simp [hfile, eq_comm]
  case h_2 hnone =>
    simp only [reduceCtorEq, false_iff, not_exists]
    rintro place ⟨hresolve, -⟩
    exact hnone place hresolve

/-- A `path` is written exactly if it `IsWritable`, whatever the `content` is. -/
theorem exists_write?_iff {path : Text} :
    (∃ t', t.write? path content = some t') ↔ t.IsWritable path := by
  simp only [write?_eq_some_iff]
  constructor
  · rintro ⟨_, place, hresolve, hfile, -⟩
    exact ⟨place, hresolve, hfile⟩
  · rintro ⟨place, hresolve, hfile⟩
    exact ⟨_, place, hresolve, hfile, rfl⟩

/-- What is written is the one file that the `path` leads to (`Wrote`), and everything else is read
as before. -/
theorem wrote_of_write? {path : Text} (h : t.write? path content = some t') :
    t.Wrote path content t' := by
  obtain ⟨place, hresolve, hfile, rfl⟩ := write?_eq_some_iff.mp h
  -- The new file makes no directory, so all paths lead where they led.
  have hdirectory : ∀ spot, (t.insert place content).isDirectory spot = t.isDirectory spot :=
    isDirectory_insert (isDirectory_dropLast hresolve hfile)
  constructor
  · intro other
    rw [lookup_insert]
    by_cases hother : place = other
    · subst hother
      simp [hresolve]
    · simp [hresolve, hother, Ne.symm hother]
  · intro other
    rw [FileTree.read, resolve_congr hdirectory, hresolve, FileTree.read]
    cases t.resolve other with
    | none => rfl
    | some spot =>
      simp only [hdirectory, Option.some.injEq]
      cases spot with
      | above => rfl
      | below there =>
        simp only [lookup_insert, Spot.below.injEq]
        by_cases hthere : there = place
        · subst hthere
          simp [hfile]
        · simp [hthere]

end Sketch.FileTree
