import Stencil.Doc.Walk
import Stencil.Text.Blank
import Stencil.Text.Segments

/-!
# Urls of stylesheets

A `url()` value is written without escapes and without the blanks around it. In a stylesheet whose
own url is known, a relative value is resolved against the directory of that url. Paths are brought
to a normal form: no empty and no `.` segment, and `..` only at the start of a relative path.
-/

namespace Stencil.Stylesheet

/-- Text without backslash escapes: a backslash goes and the character behind it stays. A
backslash in front of a line break, or at the end, stays. -/
def unescape : List Char → List Char
  | '\\' :: c :: more => if c = '\n' then '\\' :: c :: unescape more else c :: unescape more
  | c :: more => c :: unescape more
  | [] => []

/-- It may stand in a scheme. -/
def isSchemeChar (c : Char) : Bool := c.isAlphanum || c == '+' || c == '.' || c == '-'

/-- Whether a url starts with a scheme: a letter, letters, digits and the like, a colon. -/
def hasScheme (url : String) : Bool :=
  match url.toList with
  | c :: more => c.isAlpha && (more.dropWhile isSchemeChar).head? == some ':'
  | [] => false

/-- A url that is not relative: a path from the root, a fragment, or a url with a scheme. -/
def isAbsolute (url : String) : Bool :=
  Text.startsAtRoot url || url.toList.head? == some '#' || hasScheme url

/-- Takes one more segment. `done` holds the segments before it in normal form, the last first. -/
def descend (absolute : Bool) (done : List String) (segment : String) : List String :=
  if segment = "" || segment = "." then done
  else if segment = ".." then
    match done with
    | last :: rest => if last = ".." then ".." :: done else rest
    | [] => if absolute then [] else [".."]
  else segment :: done

/-- The normal form of a path. -/
def normalizePath (path : String) : String :=
  let absolute := Text.startsAtRoot path
  let parts := (Text.segments path).foldl (descend absolute) []
  let joined := "/".intercalate parts.reverse
  if absolute then "/" ++ joined else if joined = "" then "." else joined

/-- The directory of a url: everything up to the last slash, the slash included. -/
def directory (url : String) : String :=
  String.ofList (Text.dropEndWhile (· != '/') url.toList)

/-- A url resolved against another one. -/
def rebase (base url : String) : String :=
  normalizePath (directory base ++ url)

/-- The text of a fragment is changed. -/
def mapText (f : String → String) : Fragment → Fragment
  | .text s => .text (f s)
  | .node id => .node id

/-- The first fragment is changed. -/
def mapHead (f : Fragment → Fragment) : Branch → Branch
  | first :: more => f first :: more
  | [] => []

/-- The last fragment is changed. -/
def mapLast (f : Fragment → Fragment) (b : Branch) : Branch :=
  (mapHead f b.reverse).reverse

/-- A `url()` value in its normal form. It is resolved if `base` is given and the value is plain
text and relative. -/
def normalizeValue (base : Option String) (value : Branch) : Branch :=
  let plain := value.map (mapText fun s => String.ofList (unescape s.toList))
  let trimmed := mapLast (mapText Text.trimEnd) (mapHead (mapText Text.trimStart) plain)
  match base, trimmed with
  | some base, [.text url] => if isAbsolute url then trimmed else [.text (rebase base url)]
  | _, _ => trimmed

/-- Brings every `url()` value below a node to its normal form. -/
def normalizeUrls (base : Option String) (id : NodeId) (d : Document) : Document :=
  (d.descendants id [.cssUrl] []).foldl
    (fun d url => d.setBranch url 0 (normalizeValue base (d.branch url 0))) d

end Stencil.Stylesheet
