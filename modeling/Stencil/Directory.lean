import Stencil.Error
import Stencil.Text.Segments

/-!
# Directories

A path is followed from left to right, one segment at a time: an empty segment and `.` stay, `..` goes
up, and a name goes down. What lies outside the directory is not known: a walk may leave it, and finds no
file there.
-/

namespace Stencil

/-- The files below a directory, each with the names that lead to it. -/
structure Directory where
  files : List (List String × String) := []
  deriving DecidableEq, Repr, Inhabited

/-- What a path leads to. -/
inductive Location where
  | folder (names : List String)
  | file (content : String)
  | outside
  deriving DecidableEq, Repr

namespace Directory

/-- The segments of the path of a file that count. -/
def names (path : String) : List String :=
  (Text.segments path).filter fun s => s ≠ "" && s ≠ "."

/-- The directory of some files, given by their paths. Of two files at one path the later counts. -/
def ofFiles (files : List (String × String)) : Directory :=
  ⟨(files.map fun (path, content) => (names path, content)).reverse⟩

/-- What the directory has under a path. -/
def entry? (dir : Directory) (names : List String) : Option Location :=
  match dir.files.lookup names with
  | some content => some (.file content)
  | none =>
    if names.isEmpty || dir.files.any (fun (path, _) => names.isPrefixOf path) then
      some (.folder names)
    else none

/-- How many bytes a name may have. -/
def maxName : Nat := 255

/-- How many bytes a path may have. -/
def maxPath : Nat := 4095

/-- One segment of a path is followed. -/
def step (dir : Directory) (location : Location) (segment : String) : Except LoadFault Location :=
  match location with
  | .file _ => .error .notDirectory
  | .folder names =>
    if segment = "" || segment = "." then .ok location
    else if segment = ".." then
      .ok (if names.isEmpty then .outside else .folder names.dropLast)
    else if maxName < segment.utf8ByteSize then .error .invalidName
    else
      match dir.entry? (names ++ [segment]) with
      | some next => .ok next
      | none => .error .notFound
  | .outside =>
    if segment = "" || segment = "." || segment = ".." then .ok .outside
    else if maxName < segment.utf8ByteSize then .error .invalidName
    else .error .notFound

/-- Where a path leads from the top. A path that starts with a slash leads outside. -/
def follow (dir : Directory) (path : String) : Except LoadFault Location :=
  if path.toList.contains '\x00' then .error .invalidInput
  else if maxPath < path.utf8ByteSize then .error .invalidName
  else
    let start := if Text.startsAtRoot path then .outside else .folder []
    (Text.segments path).foldlM dir.step start

/-- The content of the file a path leads to. -/
def read (dir : Directory) (path : String) : Except LoadFault String := do
  match ← dir.follow path with
  | .file content => return content
  | .folder _ | .outside => throw .isDirectory

/-- A path that starts in the directory and never goes up. -/
def isInner (path : String) : Bool :=
  !Text.startsAtRoot path && !(Text.segments path).contains ".."

/-- A path below another one. -/
def join (base name : String) : String :=
  if base = "" then name else base ++ "/" ++ name

/-- The file with a given name below `base`. Names that could lead out of `base` are not found. -/
def readBelow (dir : Directory) (base name : String) : Except LoadFault String :=
  if isInner name then dir.read (join base name) else .error .notFound

end Directory

end Stencil
