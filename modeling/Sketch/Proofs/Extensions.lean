import Mathlib.Data.List.Basic
import Mathlib.Data.List.TakeWhile
import Sketch.Proofs.Files

/-!
# Another extension is another file

A path is a directory, which is empty or ends in a slash, and a last component, which may have an
extension (`Path.Divides`). `FileTree.resolve_eq_iff_of_divides` shows that a path with another
extension put in leads to the same file exactly if it is the same extension.

Points in the directory play no part in this, and neither does what the directory leads to: both
paths go through it to the same spot (`FileTree.exists_enter_of_resolve`), and from one spot two
components lead to the same file only if they are equal (`FileTree.exists_place_of_enter`).
-/

namespace Sketch

/-! ## The last of a byte -/

namespace Text

variable {mark : Byte} {s t : Text}

/-- A text `t` has no byte `mark`, or it has a last one, with no other `behind` it. -/
theorem exists_last (mark : Byte) (t : Text) :
    mark ∉ t ∨ ∃ before behind, t = before ++ mark :: behind ∧ mark ∉ behind := by
  by_cases hmark : mark ∈ t
  · obtain ⟨behind, before, hreverse, hbehind⟩ :=
      List.eq_append_cons_of_mem (List.mem_reverse.mpr hmark)
    refine .inr ⟨before.reverse, behind.reverse, ?_, by simpa using hbehind⟩
    simpa using congrArg List.reverse hreverse
  · exact .inl hmark

/-- A text `t` without the byte `mark` is all behind it, and nothing is in front. -/
theorem last_parts_of_notMem (h : mark ∉ t) :
    (t.reverse.takeWhile (· != mark)).reverse = t ∧
      (t.reverse.dropWhile (· != mark)).reverse = [] := by
  have hne : ∀ b ∈ t.reverse, (b != mark) = true := fun b hb =>
    bne_iff_ne.mpr fun heq => h (heq ▸ List.mem_reverse.mp hb)
  rw [List.takeWhile_eq_self_iff.mpr hne, List.dropWhile_eq_nil_iff.mpr hne, List.reverse_reverse]
  exact ⟨rfl, rfl⟩

/-- The parts `s` and `t` around a byte `mark` are found again from the end, if `t` holds no `mark`.
-/
theorem last_parts_append_cons (h : mark ∉ t) :
    ((s ++ mark :: t).reverse.takeWhile (· != mark)).reverse = t ∧
      ((s ++ mark :: t).reverse.dropWhile (· != mark)).reverse = s ++ [mark] := by
  have hne : ∀ b ∈ t.reverse, (b != mark) = true := fun b hb =>
    bne_iff_ne.mpr fun heq => h (heq ▸ List.mem_reverse.mp hb)
  have hreverse : (s ++ mark :: t).reverse = t.reverse ++ mark :: s.reverse := by simp
  rw [hreverse, List.takeWhile_append_of_pos hne, List.dropWhile_append_of_pos hne,
    List.takeWhile_cons_of_neg (by simp), List.dropWhile_cons_of_neg (by simp)]
  simp

end Text

namespace Path

/-! ## Directory, stem and extension -/

/-- What stands in front of the last component of a path: nothing, or a text that ends in a slash.
-/
def IsDirectory (dir : Text) : Prop := dir = [] ∨ ∃ above, dir = above ++ [Byte.slash]

/-- A path is divided into the directory, the stem and the extension of its last component. The
extension starts with the last point, unless this is the first byte of the component or the
component is `..`. -/
structure Divides (path dir stem ext : Text) : Prop where
  whole : path = dir ++ stem ++ ext
  dir : IsDirectory dir
  slash_notMem : Byte.slash ∉ stem ++ ext
  ext : ext = [] ∧ (Byte.dot ∉ stem.tail ∨ stem = ascii "..") ∨
    ∃ rest, ext = Byte.dot :: rest ∧ Byte.dot ∉ rest ∧ stem ≠ [] ∧ stem ++ ext ≠ ascii ".."

/-- A component `name` without a point has no extension. -/
theorem splitExtension_of_notMem {name : Text} (h : Byte.dot ∉ name) :
    splitExtension name = (name, []) := by
  obtain ⟨-, hstem⟩ := Text.last_parts_of_notMem h
  rw [splitExtension, hstem]
  rfl

/-- The last point of a component starts its extension, unless it is the first byte or the component
is `..`. -/
theorem splitExtension_append {stem rest : Text} (h : Byte.dot ∉ rest) :
    splitExtension (stem ++ Byte.dot :: rest) =
      if stem = [] ∨ stem ++ Byte.dot :: rest = ascii ".." then (stem ++ Byte.dot :: rest, [])
      else (stem, Byte.dot :: rest) := by
  obtain ⟨hrest, hstem⟩ := Text.last_parts_append_cons (s := stem) h
  rw [splitExtension, hrest, hstem, List.dropLast_concat]
  simp

/-- Every `path` is divided in the way in which its extension is found, by `directory`, `fileName`
and `splitExtension`. -/
theorem divides (path : Text) : Divides path (directory path) (splitExtension (fileName path)).1
    (fileExtension path) := by
  have hdir : IsDirectory (directory path) ∧ Byte.slash ∉ fileName path := by
    rcases Text.exists_last Byte.slash path with hnone | ⟨above, name, rfl, hname⟩
    · obtain ⟨hwhole, hempty⟩ := Text.last_parts_of_notMem hnone
      exact ⟨.inl hempty, fun hmem => hnone (hwhole ▸ hmem)⟩
    · obtain ⟨hbehind, hbefore⟩ := Text.last_parts_append_cons (s := above) hname
      exact ⟨.inr ⟨above, hbefore⟩, fun hmem => hname (hbehind ▸ hmem)⟩
  have hwhole := (directory_append_fileName path).symm
  rw [fileExtension]
  generalize directory path = dir at hdir hwhole
  generalize fileName path = name at hdir hwhole
  obtain ⟨hdir, hslash⟩ := hdir
  -- The extension starts with the last point of the component, if there is one.
  rcases Text.exists_last Byte.dot name with hnone | ⟨stem, rest, rfl, hrest⟩
  · rw [splitExtension_of_notMem hnone]
    have htail : Byte.dot ∉ name.tail := fun hmem => hnone (List.mem_of_mem_tail hmem)
    exact ⟨by simpa using hwhole, hdir, by simpa using hslash, .inl ⟨rfl, .inl htail⟩⟩
  · rw [splitExtension_append hrest]
    split
    case isTrue hwithout =>
      refine ⟨by simpa using hwhole, hdir, by simpa using hslash, .inl ⟨rfl, ?_⟩⟩
      rcases hwithout with rfl | hup
      · exact .inl hrest
      · exact .inr hup
    case isFalse hwith =>
      obtain ⟨hstem, hup⟩ := not_or.mp hwith
      exact ⟨by rw [List.append_assoc, hwhole], hdir, hslash, .inr ⟨rest, rfl, hrest, hstem, hup⟩⟩

/-- A `path` is divided in no other way than by `directory`, `fileName` and `splitExtension`. -/
theorem divides_iff {path dir stem ext : Text} : Divides path dir stem ext ↔
    dir = directory path ∧ (stem, ext) = splitExtension (fileName path) := by
  constructor
  · rintro ⟨hwhole, hdir, hslash, hext⟩
    have hparts : directory path = dir ∧ fileName path = stem ++ ext := by
      rw [hwhole, List.append_assoc]
      rcases hdir with rfl | ⟨above, rfl⟩
      · exact (Text.last_parts_of_notMem hslash).symm
      · rw [List.append_assoc]
        exact (Text.last_parts_append_cons hslash).symm
    refine ⟨hparts.1.symm, ?_⟩
    rw [hparts.2]
    -- Without an extension the last component has no point but perhaps its first byte, or it is two
    -- points.
    rcases hext with ⟨rfl, htail | rfl⟩ | ⟨rest, rfl, hrest, hstem, hup⟩
    · rw [List.append_nil]
      cases stem with
      | nil => rfl
      | cons b rest =>
        by_cases hb : b = Byte.dot
        · subst hb
          exact (@splitExtension_append [] rest htail).symm
        · refine (splitExtension_of_notMem fun hmem => ?_).symm
          exact (List.mem_cons.mp hmem).elim (Ne.symm hb) htail
    · rfl
    · rw [splitExtension_append hrest, if_neg (not_or.mpr ⟨hstem, hup⟩)]
  · rintro ⟨rfl, hsplit⟩
    obtain ⟨rfl, rfl⟩ := Prod.mk.inj hsplit
    exact divides path

/-! ## Components -/

/-- A slash ends a piece, and the pieces of `t` behind it are found on their own. -/
theorem split_append (s t : Text) : split (s ++ Byte.slash :: t) =
    ((split s).1, (split s).2 ++ (split t).1 :: (split t).2) := by
  induction s with
  | nil => simp [split]
  | cons b s ih =>
    rw [List.cons_append, split, split, ih]
    by_cases hb : b = Byte.slash
    · simp [hb]
    · simp [hb]

/-- A `name` without a slash is a single piece. -/
theorem split_of_notMem {name : Text} (h : Byte.slash ∉ name) : split name = (name, []) := by
  induction name with
  | nil => rfl
  | cons b name ih =>
    have hb : b ≠ Byte.slash := fun heq => h (heq ▸ List.mem_cons_self)
    rw [split, ih (fun hmem => h (List.mem_cons_of_mem _ hmem))]
    simp [hb]

/-- The components of a path with a slash are those of `s` before it and those of `t` behind it. -/
theorem components_append (s t : Text) :
    components (s ++ Byte.slash :: t) = components s ++ components t := by
  rw [components, split_append]
  dsimp only
  rw [← List.cons_append, List.filter_append]
  rfl

/-- A `name` without a slash that is not empty is the only component of its path. -/
theorem components_of_notMem {name : Text} (h : Byte.slash ∉ name) (hne : name ≠ []) :
    components name = [name] := by
  simp [components, split_of_notMem h, hne]

variable {dir name : Text}

/-- What is entered last on a path through a directory: the component `name`, or the directory
itself if there is none. -/
def lastStep (name : Text) : Text := if name = [] then ascii "." else name

/-- The components of a path through `dir` are those of `dir` and the `lastStep`. A path that ends
in a slash leads into the directory. -/
theorem steps_append (hdir : IsDirectory dir) (hname : Byte.slash ∉ name) (hne : dir ++ name ≠ []) :
    components (dir ++ name) ++
        (if (dir ++ name).getLast? = some Byte.slash then [ascii "."] else []) =
      components dir ++ [lastStep name] := by
  have hempty : components [] = [] := rfl
  rw [lastStep]
  by_cases hlast : name = []
  · subst hlast
    rcases hdir with rfl | ⟨above, rfl⟩
    · exact absurd rfl hne
    · simp
  · -- A name with bytes has the last one of the path, and that is no slash.
    have hnotSlash : (dir ++ name).getLast? ≠ some Byte.slash := by
      rw [List.getLast?_append_of_ne_nil _ hlast]
      exact fun hmem => hname (List.mem_of_getLast? hmem)
    rw [if_neg hnotSlash, if_neg hlast, List.append_nil]
    rcases hdir with rfl | ⟨above, rfl⟩
    · rw [List.nil_append, hempty, List.nil_append, components_of_notMem hname hlast]
    · rw [List.append_assoc, List.singleton_append, components_append, components_append, hempty,
        List.append_nil, components_of_notMem hname hlast]

/-- A path through `dir` starts with a slash exactly if `dir` does. -/
theorem head?_append_eq_slash_iff (hname : Byte.slash ∉ name) :
    (dir ++ name).head? = some Byte.slash ↔ dir.head? = some Byte.slash := by
  cases dir with
  | nil =>
    refine iff_of_false (fun hhead => hname (List.mem_of_head? hhead)) nofun
  | cons b dir => rfl

end Path

namespace FileTree

variable {t : FileTree} {dir name name' : Text} {spot spot' : Spot}

/-! ## What paths lead to -/

/-- The spot where a path through `dir` starts: the root, or the working directory. -/
def startOf (dir : Text) : Spot := if dir.head? = some Byte.slash then .above else .below []

/-- A path that leads to a `spot` leads through its directory `dir` to the last component. -/
theorem exists_enter_of_resolve (hdir : Path.IsDirectory dir) (hname : Byte.slash ∉ name)
    (h : t.resolve (dir ++ name) = some spot) :
    ∃ inside, (Path.components dir).foldlM t.enter (startOf dir) = some inside ∧
      t.enter inside (Path.lastStep name) = some spot := by
  unfold resolve at h
  split at h
  case isTrue => cases h
  case isFalse hpath =>
    have hne : dir ++ name ≠ [] := by
      intro hempty
      simp [hempty] at hpath
    simp only [Path.head?_append_eq_slash_iff hname] at h
    rw [Path.steps_append hdir hname hne, List.foldlM_append] at h
    obtain ⟨inside, hinside, hlast⟩ := Option.bind_eq_some_iff.mp h
    exact ⟨inside, hinside, by simpa using hlast⟩

/-- A `component` that leads to no directory (`hfile`) leads to what it names in the one it is
entered from. -/
theorem exists_place_of_enter {component : Text} (h : t.enter spot component = some spot')
    (hfile : ¬ t.isDirectory spot') :
    ∃ place, spot = .below place ∧ spot' = .below (place ++ [component]) ∧
      component ≠ ascii "." := by
  unfold enter at h
  -- A component of one point stays in the directory, which is one.
  split at h
  case isTrue => cases h
  case isFalse hpassable =>
    obtain ⟨hdirectory, -⟩ :
        t.isDirectory spot ∧ component.length ≤ Path.maxComponentLength := by
      simpa using hpassable
    split at h
    case isTrue =>
      obtain rfl := Option.some.inj h
      exact absurd hdirectory hfile
    case isFalse hdot =>
      cases spot with
      | above =>
        obtain ⟨-, habove⟩ := Option.ite_none_right_eq_some.mp h
        obtain rfl := Option.some.inj habove
        exact absurd rfl hfile
      | below place =>
        simp only at h
        split at h
        · obtain rfl := Option.some.inj h
          exact ⟨place, rfl, rfl, hdot⟩
        · -- Two points lead to a directory above.
          split at h
          · obtain rfl := Option.some.inj h
            exact absurd rfl hfile
          · obtain rfl := Option.some.inj h
            exact absurd (isDirectory_above hdirectory (List.dropLast_prefix place)) hfile

/-- Two components `name` and `name'` lead through one directory to the same file only if they are
equal. -/
theorem eq_of_resolve (hdir : Path.IsDirectory dir) (hname : Byte.slash ∉ name)
    (hname' : Byte.slash ∉ name')
    (h : t.resolve (dir ++ name) = some spot) (h' : t.resolve (dir ++ name') = some spot)
    (hfile : ¬ t.isDirectory spot) : name = name' := by
  obtain ⟨inside, hinside, hlast⟩ := exists_enter_of_resolve hdir hname h
  obtain ⟨inside', hinside', hlast'⟩ := exists_enter_of_resolve hdir hname' h'
  obtain rfl := Option.some.inj (hinside.symm.trans hinside')
  obtain ⟨place, rfl, rfl, hdot⟩ := exists_place_of_enter hlast hfile
  obtain ⟨place', hplace, hsame, hdot'⟩ := exists_place_of_enter hlast' hfile
  obtain rfl := Spot.below.inj hplace
  have hsteps : Path.lastStep name = Path.lastStep name' := by simpa using hsame
  have hne : ∀ {n : Text}, Path.lastStep n ≠ ascii "." → n ≠ [] := by
    rintro n hn rfl
    exact hn rfl
  rwa [Path.lastStep, Path.lastStep, if_neg (hne hdot), if_neg (hne hdot')] at hsteps

/-- The path with the extension `new` in place of `ext` leads to the same file exactly if `ext` is
`new`. -/
theorem resolve_eq_iff_of_divides {path stem ext new : Text} (h : Path.Divides path dir stem ext)
    (hnew : Byte.slash ∉ new) (hwritable : t.IsWritable (dir ++ stem ++ new)) :
    t.resolve (dir ++ stem ++ new) = t.resolve path ↔ ext = new := by
  constructor
  · intro hsame
    obtain ⟨place, hresolve, hfile⟩ := hwritable
    have hslash : Byte.slash ∉ stem ++ new := by
      have hstem := h.slash_notMem
      simp only [List.mem_append, not_or] at hstem ⊢
      exact ⟨hstem.1, hnew⟩
    rw [hsame, h.whole] at hresolve
    have hresolve' := hsame.trans (h.whole ▸ hresolve)
    rw [List.append_assoc] at hresolve hresolve'
    exact List.append_cancel_left
      (eq_of_resolve h.dir h.slash_notMem hslash hresolve hresolve' hfile)
  · rintro rfl
    rw [h.whole]

end FileTree

end Sketch
