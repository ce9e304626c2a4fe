import Stencil.Doc.Emission
import Stencil.Text.Blank

/-!
# Tags of markup

What a tag says: its name and its attributes. A tag is given by its fragments, which are the children of
a tag that stands alone, or the opening of an element with a body.
-/

namespace Stencil.Markup

/-- The first node of a kind. -/
def part? (d : Document) (b : Branch) (kind : Kind) : Option NodeId :=
  b.nodes.find? (d.kind · == kind)

/-- Whether the last fragment of a branch is a node of a given kind. -/
def endsIn (d : Document) (b : Branch) (kind : Kind) : Bool :=
  (b.getLast?.bind Fragment.node?).any (d.kind · == kind)

/-- The tag ends in a slash. -/
def isSelfClosing (d : Document) (tag : Branch) : Bool :=
  endsIn d tag .tagEndSign

/-- The name of a tag. -/
def tagName? (d : Document) (tag : Branch) : Option String :=
  (part? d tag .tagName).map d.ownText

/-- The name of an attribute. -/
def attributeName (d : Document) (id : NodeId) : String :=
  match part? d (d.children id) .attributeKey with
  | some key => String.ofList (Text.dropEndWhile (· == '=') (d.ownText key).toList)
  | none => ""

/-- The value of an attribute as it is written, with its quotes. -/
def attributeValue? (d : Document) (id : NodeId) : Option String :=
  (part? d (d.children id) .attributeValue).map d.sourceOf

/-- The attributes of a tag. -/
def attributes (d : Document) (tag : Branch) : List NodeId :=
  tag.nodes.filter (d.kind · == .tagAttribute)

/-- The first attribute of a name. -/
def attribute? (d : Document) (tag : Branch) (name : String) : Option NodeId :=
  (attributes d tag).find? fun a => Text.sameAsciiCaseless (attributeName d a) name

/-- A value without its quotes. -/
def unquote (s : String) : String :=
  let isQuote := fun c : Char => c == '"' || c == '\''
  String.ofList (Text.dropEndWhile isQuote (s.toList.dropWhile isQuote))

/-- The value of a tag's attribute without quotes; an attribute without a value has an empty one. -/
def valueOf? (d : Document) (tag : Branch) (name : String) : Option String :=
  (attribute? d tag name).map fun a => unquote ((attributeValue? d a).getD "")

/-- Gives an attribute a value in double quotes. Answers whether the attribute had a value. -/
def setAttributeValue (d : Document) (id : NodeId) (value : String) : Bool × Document :=
  match part? d (d.children id) .attributeValue with
  | some node => (true, d.setChildren node [.text ("\"" ++ value ++ "\"")])
  | none => (false, d)

/-- The opening tag of an element. -/
def openingTag (d : Document) (element : NodeId) : Branch :=
  (d.node element).body.opening

end Stencil.Markup
