import Sketch.CommandLine.Path

/-!
# Files

What the command line needs of a file system: to read a file, and to write one. `Files` is that
interface, and a `FileTree` is the plainest thing that has it, a list of files under a working
directory.
-/

namespace Sketch

/-- What reading a path gives. -/
inductive Reading where
  /-- The path cannot be opened. -/
  | absent
  /-- The path can be opened, but it is a directory and has no content. -/
  | directory
  /-- The content of a file. -/
  | content (text : Text)
deriving DecidableEq

/-- A place where files are read and written. -/
class Files (m : Type → Type) where
  /-- Read a path. -/
  read : Text → m Reading
  /-- Write a file with the given content and tell whether that was possible. -/
  write : Text → Text → m Bool

/-- Files by their components from the working directory on. A directory is there if it leads to a
file, and there are no links. -/
structure FileTree where
  files : List (List Text × Text)
deriving DecidableEq

namespace FileTree

/-- A place that a path leads to. -/
inductive Spot where
  /-- A directory above the working directory, of which nothing else is known. -/
  | above
  /-- A place by its components from the working directory on, where something may be or not. -/
  | below (components : List Text)
deriving DecidableEq

/-- The content of the file of `t` at the given `place`. -/
def lookup (t : FileTree) (place : List Text) : Option Text := t.files.lookup place

/-- The list of files with a file of the given `content` at a `place`, where the first one there is
replaced. -/
def put (place : List Text) (content : Text) :
    List (List Text × Text) → List (List Text × Text)
  | [] => [(place, content)]
  | (other, old) :: files =>
    if other = place then (place, content) :: files else (other, old) :: put place content files

/-- The tree `t` with a file of the given `content` at a `place`. -/
def insert (t : FileTree) (place : List Text) (content : Text) : FileTree :=
  ⟨put place content t.files⟩

/-- A file that was `put` at a `place` is found there, and every `other` file is found as before. -/
theorem lookup_put (place other : List Text) (content : Text) (files : List (List Text × Text)) :
    (put place content files).lookup other =
      if other = place then some content else files.lookup other := by
  induction files with
  | nil => grind [put]
  | cons file files ih => grind [put]

/-- A file that was inserted at a `place` of the tree `t` is found there, and every `other` file is
found as before. -/
theorem lookup_insert (t : FileTree) (place other : List Text) (content : Text) :
    (t.insert place content).lookup other =
      if other = place then some content else t.lookup other :=
  lookup_put place other content t.files

/-- The tree that has the given `files` by their paths, which do not lead upwards. -/
def ofFiles (files : List (Text × Text)) : FileTree :=
  let place (path : Text) := (Path.components path).filter (· ≠ ascii ".")
  files.foldl (fun t (path, content) => t.insert (place path) content) ⟨[]⟩

/-- There is a directory at the spot: it is above the working directory, the working directory
itself, or on the way to a file of `t`. -/
def isDirectory (t : FileTree) : Spot → Bool
  | .above => true
  | .below place =>
    place.isEmpty || t.files.any fun (other, _) => place.isPrefixOf other && place != other

/-- The spot that a `component` leads to from a directory at `spot`. From anything else it leads
nowhere, and so does a component that is too long. -/
def enter (t : FileTree) (spot : Spot) (component : Text) : Option Spot :=
  if !t.isDirectory spot || Path.maxComponentLength < component.length then none
  else if component = ascii "." then some spot
  else
    match spot with
    | .above => if component = ascii ".." then some .above else none
    | .below place =>
      if component ≠ ascii ".." then some (.below (place ++ [component]))
      else if place.isEmpty then some .above
      else some (.below place.dropLast)

/-- The spot that a `path` leads to. An empty path and one that is too long lead nowhere, and a
slash at the end of a path asks for a directory. -/
def resolve (t : FileTree) (path : Text) : Option Spot :=
  if path.isEmpty || Path.maxLength < path.length then none
  else
    let first : Spot := if path.head? = some Byte.slash then .above else .below []
    let last := if path.getLast? = some Byte.slash then [ascii "."] else []
    (Path.components path ++ last).foldlM t.enter first

/-- What reading a `path` in the tree `t` gives: the content of the file that it leads to, if there
is one. -/
def read (t : FileTree) (path : Text) : Reading :=
  match t.resolve path with
  | none => .absent
  | some spot =>
    if t.isDirectory spot then .directory
    else
      match spot with
      | .above => .absent
      | .below place =>
        match t.lookup place with
        | some content => .content content
        | none => .absent

/-- The tree after writing `content` to a `path`, if that is possible: the path must lead to a spot
where no directory is. -/
def write? (t : FileTree) (path content : Text) : Option FileTree :=
  match t.resolve path with
  | some (.below place) =>
    if t.isDirectory (.below place) then none else some (t.insert place content)
  | _ => none

/-- The files of `t` that the tree `earlier` does not have or has with other content. -/
def changesFrom (t earlier : FileTree) : List (List Text × Text) :=
  t.files.filter fun (place, content) => earlier.lookup place ≠ some content

instance : Files (StateM FileTree) where
  read path t := (t.read path, t)
  write path content t :=
    match t.write? path content with
    | some t => (true, t)
    | none => (false, t)

end FileTree

end Sketch
