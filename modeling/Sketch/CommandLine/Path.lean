import Sketch.Text

/-!
# Paths

The extension of a path is what its last component has from its last point on, unless that point is
the first byte of the component or the component is `..`. A path that ends in a slash has an empty
last component, and points in the other components mean nothing. A path or a component that is too
long leads nowhere, so here are the limits.
-/

namespace Sketch

namespace Path

/-- The most bytes that a path may have for a file system to take it. -/
def maxLength : Nat := 4095

/-- The most bytes that a component of such a path may have. -/
def maxComponentLength : Nat := 255

/-- The `path` up to and with its last slash, or nothing if it has no slash. -/
def directory (path : Text) : Text := (path.reverse.dropWhile (· != Byte.slash)).reverse

/-- The last component of a `path`, which is what follows its last slash. -/
def fileName (path : Text) : Text := (path.reverse.takeWhile (· != Byte.slash)).reverse

/-- A `path` is its `directory` and its `fileName`, so that nothing of it is lost between them. -/
theorem directory_append_fileName (path : Text) : directory path ++ fileName path = path := by
  rw [directory, fileName, ← List.reverse_append, List.takeWhile_append_dropWhile,
    List.reverse_reverse]

/-- A component `name` without its extension, and the extension with its point. There is none if the
last point is the first byte of `name`, or if `name` is `..`. -/
def splitExtension (name : Text) : Text × Text :=
  let afterPoint := (name.reverse.takeWhile (· != Byte.dot)).reverse
  let stem := (name.reverse.dropWhile (· != Byte.dot)).reverse.dropLast
  if stem.isEmpty || name == ascii ".." then (name, []) else (stem, Byte.dot :: afterPoint)

/-- The extension of the last component of a `path` with its point, or nothing. -/
def fileExtension (path : Text) : Text := (splitExtension (fileName path)).2

/-- The `path` with the extension `new`, to which a point is added if it has none. An empty
extension takes the old one away. -/
def withExtension (path new : Text) : Text :=
  directory path ++ (splitExtension (fileName path)).1 ++
    (if new.isEmpty || new.head? == some Byte.dot then new else Byte.dot :: new)

/-- The `path` names a stored list of commands: its extension is `.json`. -/
def isCommandsFile (path : Text) : Bool := fileExtension path == ascii ".json"

/-- The pieces of a path between its slashes: the first one, and the others. -/
def split : Text → Text × List Text
  | [] => ([], [])
  | b :: rest =>
    let (piece, pieces) := split rest
    if b == Byte.slash then ([], piece :: pieces) else (b :: piece, pieces)

/-- The components of a `path` that are not empty, in order. -/
def components (path : Text) : List Text :=
  ((split path).1 :: (split path).2).filter (!·.isEmpty)

end Path

end Sketch
