import Stencil.Doc.Document

/-!
# Copying parts of a document

The copies take the next free numbers in breadth-first order, the node itself first. A name that follows
an identifier of the copied part follows its copy. A name that follows an identifier outside keeps doing
so within one document, and is dropped when the copy goes to another document.
-/

namespace Stencil.Document

/-- How many nodes are reached from `id` along references, at most `levels` deep. A node reached
in two ways counts twice. -/
def weight (d : Document) : (levels : Nat) → NodeId → Nat
  | 0, _ => 1
  | levels + 1, id => 1 + ((d.node id).references.map (d.weight levels)).sum

/-- The nodes reached from a worklist, breadth first: the head of the list, and then what is
reached with its references put at the end of the list. At most `steps` nodes are taken. -/
def spread (d : Document) : (steps : Nat) → List NodeId → List NodeId
  | 0, _ => []
  | _ + 1, [] => []
  | steps + 1, id :: rest => id :: d.spread steps (rest ++ (d.node id).references)

/-- Every node reached from `id` along references, `id` first. -/
def reached (d : Document) (id : NodeId) : List NodeId :=
  d.spread (d.weight d.size id) [id]

/-- A node with other numbers in it. -/
def renumber (f : NodeId → NodeId) (target : NodeId → Option NodeId) (n : Node) : Node :=
  let fragment : Fragment → Fragment
    | .text s => .text s
    | .node id => .node (f id)
  { n with
    branches := n.branches.map (·.map fragment)
    payload := match n.payload with
      | .none => .none
      | .body b => .body {
          opening := b.opening.map fragment
          markers := b.markers.map fun (i, id) => (i, f id)
          closing := b.closing.map f }
      | .naming m => .naming { m with target := m.target.bind target } }

/-- Adds copies of nodes of `source`. They refer to each other by their new numbers. A name that
follows an identifier which is not copied follows what `outside` says. -/
def adopt (d source : Document) (copied : List NodeId) (outside : NodeId → Option NodeId) :
    NodeId × Document :=
  let numbers := (copied.zipIdx d.size).reverse
  let number? := fun id => numbers.lookup id
  let number := fun id => (number? id).getD id
  let target := fun id => (number? id).or (outside id)
  (d.size,
    { d with nodes := d.nodes ++ (copied.map fun id => renumber number target (source.node id)) })

/-- A copy of a node and of everything it refers to, in the same document. -/
def duplicate (d : Document) (id : NodeId) : NodeId × Document :=
  d.adopt d (d.reached id) some

/-- A copy of a node of another document. -/
def graft (d source : Document) (id : NodeId) : NodeId × Document :=
  d.adopt source (source.reached id) fun _ => none

/-- A copy of a branch within the document. -/
def duplicateBranch (d : Document) (b : Branch) : Branch × Document :=
  let (copy, d) := b.foldl (fun (copy, d) f =>
    match f with
    | .text s => (.text s :: copy, d)
    | .node id => let (id, d) := duplicate d id; (.node id :: copy, d)) (([] : Branch), d)
  (copy.reverse, d)

end Stencil.Document
