import Stencil.Doc.Node

/-!
# Documents

Nodes are never destroyed: one that is taken out of every branch stays in the document, out of reach of
the root. A number outside the document reads as an empty root node.
-/

namespace Stencil

/-- The nodes of a document, each at its number. -/
structure Document where
  nodes : Array Node
  deriving DecidableEq, Repr, Inhabited

namespace Document

/-- The node that holds the template. -/
abbrev root : NodeId := 0

/-- How many nodes there are. -/
def size (d : Document) : Nat := d.nodes.size

/-- The node of a number. -/
def node (d : Document) (id : NodeId) : Node :=
  d.nodes[id]?.getD { kind := .root, place := Place.startOf "" }

/-- The kind of a node. -/
def kind (d : Document) (id : NodeId) : Kind := (d.node id).kind

/-- Where a node started. -/
def place (d : Document) (id : NodeId) : Place := (d.node id).place

/-- The file the document came from. -/
def path (d : Document) : String := (d.place root).path

/-- The branches of a node. -/
def branches (d : Document) (id : NodeId) : List Branch := (d.node id).branches

/-- One branch of a node. -/
def branch (d : Document) (id : NodeId) (i : Nat) : Branch := (d.node id).branch i

/-- The first branch of a node. -/
def children (d : Document) (id : NodeId) : Branch := (d.node id).children

/-- The nodes in the first branch. -/
def childNodes (d : Document) (id : NodeId) : List NodeId := (d.children id).nodes

/-- The text that stands in the first branch itself. -/
def ownText (d : Document) (id : NodeId) : String := (d.children id).text

/-- The node is of one of the kinds. -/
def hasKind (d : Document) (id : NodeId) (kinds : List Kind) : Bool := kinds.contains (d.kind id)

/-- The document with one node changed. -/
def modify (d : Document) (id : NodeId) (f : Node → Node) : Document :=
  { d with nodes := d.nodes.modify id f }

/-- A new node, with its number. -/
def create (d : Document) (kind : Kind) (place : Place) : NodeId × Document :=
  (d.size, { d with nodes := d.nodes.push { kind, place } })

/-- The node gets another kind. -/
def setKind (d : Document) (id : NodeId) (kind : Kind) : Document :=
  d.modify id ({ · with kind })

/-- The branch of a node is replaced. -/
def setBranch (d : Document) (id : NodeId) (i : Nat) (b : Branch) : Document :=
  d.modify id (·.setBranch i b)

/-- Makes `b` the first branch of a node and drops its other branches. -/
def setChildren (d : Document) (id : NodeId) (b : Branch) : Document :=
  d.modify id ({ · with branches := [b] })

/-- The node loses its content. -/
def clear (d : Document) (id : NodeId) : Document :=
  d.setChildren id []

/-- A fragment goes to the end of a branch. -/
def append (d : Document) (id : NodeId) (i : Nat) (f : Fragment) : Document :=
  d.modify id fun n => n.setBranch i ((n.branch i).push f)

/-- Adds a node at the end of another node's first branch. -/
def appendNode (d : Document) (id child : NodeId) : Document :=
  d.append id 0 (.node child)

/-- Text goes to the end of the first branch. -/
def appendText (d : Document) (id : NodeId) (s : String) : Document :=
  if s = "" then d else d.append id 0 (.text s)

/-- Changes the body of a node, which gets an empty one first if it has none. -/
def modifyBody (d : Document) (id : NodeId) (f : Body → Body) : Document :=
  d.modify id fun n => { n with payload := .body (f n.body) }

/-- Changes the naming of a node, which gets an empty one first if it has none. -/
def modifyNaming (d : Document) (id : NodeId) (f : Naming → Naming) : Document :=
  d.modify id fun n => { n with payload := .naming (f n.naming) }

/-- The document of a source file: a root with the text as its only child. -/
def ofSource (path source : String) : Document :=
  ((⟨#[]⟩ : Document).create .root (Place.startOf path)).2.appendText root source

end Document

end Stencil
