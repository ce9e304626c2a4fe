/-!
# Segments of a path

A path is read as the texts between its slashes. There is always at least one segment, and a segment
may be empty.
-/

namespace Stencil.Text

/-- The characters between slashes. -/
def splitSlashes : List Char → List (List Char)
  | [] => [[]]
  | c :: more =>
    if c = '/' then [] :: splitSlashes more
    else
      match splitSlashes more with
      | first :: others => (c :: first) :: others
      | [] => [[c]]

/-- The segments of a path. -/
def segments (path : String) : List String :=
  (splitSlashes path.toList).map String.ofList

/-- The path starts with a slash. -/
def startsAtRoot (path : String) : Bool :=
  path.toList.head? == some '/'

end Stencil.Text
