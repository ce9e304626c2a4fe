import Stencil.Doc.Document

/-!
# Tags and variables

What a template tag says: its elements, the first of which is its name, and what a variable is
called. The elements of a tag with a body are those of its opening marker.
-/

namespace Stencil.Template

/-- The fragments a tag holds: the opening of its body, or its first branch where it has none. -/
def tagBranch (d : Document) (id : NodeId) : Branch :=
  match (d.node id).body? with
  | some body => body.opening
  | none => d.children id

/-- The nodes of the elements of a tag. -/
def elementNodes (d : Document) (id : NodeId) : List NodeId :=
  (tagBranch d id).nodes.filter (d.kind · == .tagElement)

/-- The texts of the elements of a tag. -/
def elements (d : Document) (id : NodeId) : List String :=
  (elementNodes d id).map d.ownText

/-- The name of a tag. -/
def tagName? (d : Document) (id : NodeId) : Option String :=
  (elements d id).head?

/-- The name of a variable. -/
def variableName (d : Document) (id : NodeId) : String :=
  String.join (((d.childNodes id).filter (d.kind · == .variablePart)).map d.ownText)

/-- It is a quote. -/
def isQuote (c : Char) : Bool := c == '"' || c == '\''

/-- What stands between the quotation marks of a quoted element. Bare words have none. -/
def literal? (element : String) : Option String :=
  match element.toList with
  | c :: cs =>
    if isQuote c && cs.getLast? == some c then some (String.ofList cs.dropLast) else none
  | [] => none

/-- An element of a tag, by its index, without the quotation marks it may have. -/
def argument? (d : Document) (id : NodeId) (index : Nat) : Option String :=
  (elements d id)[index]?.map fun e => (literal? e).getD e

/-- The text of an element that is in quotes. -/
def literalArgument? (d : Document) (id : NodeId) (index : Nat) : Option String :=
  (elements d id)[index]?.bind literal?

/-- A tag in its shortest form: the elements with one space between them. -/
def canonicalTag (elements : List String) : String :=
  "\x7b%" ++ " ".intercalate elements ++ "%\x7d"

end Stencil.Template
