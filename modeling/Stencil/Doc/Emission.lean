import Stencil.Doc.Document

/-!
# Writing a document

By default a node is written as the source it came from: delimiters around the branches, markers and
closing tag of a body in their places, and an identifier under its new name or the name it follows. A
manner of writing may take over some nodes.
-/

namespace Stencil

/-- A manner of writing: what is written for a node, given how other nodes are written, or nothing
for nodes left to the default. -/
abbrev Manner := Document → (NodeId → String) → NodeId → Option String

namespace Document

/-- A branch, with its nodes written by `write`. -/
def writeBranch (write : NodeId → String) (b : Branch) : String :=
  String.join (b.map fun
    | .text s => s
    | .node id => write id)

/-- All branches of a node, one after the other. -/
def writeBranches (d : Document) (write : NodeId → String) (id : NodeId) : String :=
  String.join ((d.branches id).map (writeBranch write))

/-- The branches of a node with a body, each after its markers, then the closing marker. -/
def writeBody (write : NodeId → String) (branches : List Branch) (b : Body) : String :=
  String.join (branches.zipIdx.map fun (branch, i) =>
      String.join ((b.markers.filter (·.1 == i)).map fun m => write m.2) ++
        writeBranch write branch) ++
    ((b.closing.map write).getD "")

/-- A node as in its source, its nodes written by `write`. -/
def writeDefault (d : Document) (write : NodeId → String) (id : NodeId) : String :=
  let n := d.node id
  match n.payload with
  | .none =>
    let (before, after) := n.kind.delimiters.getD ("", "")
    before ++ d.writeBranches write id ++ after
  | .body b =>
    let (before, after) := n.kind.openingDelimiters
    before ++ writeBranch write b.opening ++ after ++ writeBody write n.branches b
  | .naming m =>
    match m.rename with
    | some name => name
    | none =>
      match m.target with
      | some target => if target = id then writeBranch write n.children else write target
      | none => writeBranch write n.children

/-- A node written in a given manner, at most `levels` deep. -/
def writeNode (d : Document) (manner : Manner) : (levels : Nat) → NodeId → String
  | 0, _ => ""
  | levels + 1, id =>
    let write := d.writeNode manner levels
    (manner d write id).getD (d.writeDefault write id)

/-- A node written in a manner. -/
def render (d : Document) (manner : Manner) (id : NodeId) : String :=
  d.writeNode manner d.size id

/-- A node written by default. -/
def sourceOf (d : Document) (id : NodeId) : String :=
  d.render (fun _ _ _ => none) id

/-- The document written by default. -/
def source (d : Document) : String :=
  d.sourceOf root

end Document

end Stencil
