import Stencil.Directory

/-!
# Libraries

Where templates and media files come from. A library is any function of the name of a file, together
with a bound on how deep its files are loaded one inside the other. Two kinds of libraries are finite, so
that there is a bound that is never met: a list of files and a part of a directory.
-/

namespace Stencil

/-- A source of named files. -/
structure Library where
  /-- The content of the file with a name. -/
  load : (name : String) → Except LoadFault String := fun _ => .error .unsupported
  /-- How many files are loaded one inside the other, each under a name of its own. -/
  capacity : Nat := 0

namespace Library

/-- The library that does not support loading. -/
def absent : Library := {}

/-- Files by name. A name without a content is one that loading is not supported for. There are no
more names than files. -/
def listing (files : List (String × Option String)) : Library where
  load name :=
    match files.lookup name with
    | some (some content) => .ok content
    | some none => .error .unsupported
    | none => .error .notFound
  capacity := files.length

/-- The files of a directory below a given path. A file goes by many names, but each name is written
in the text of the file it is loaded from, except for the first. -/
def below (directory : Directory) (base : String) : Library where
  load := directory.readBelow base
  capacity := directory.files.foldr (fun (_, content) n => content.length + n) 1

instance : Inhabited Library := ⟨absent⟩

end Library

end Stencil
