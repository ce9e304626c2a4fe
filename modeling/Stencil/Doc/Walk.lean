import Stencil.Doc.Document

/-!
# Walking a document

Walks go through the branches of a node, depth first and in document order, but not into markers. A walk
carries the number of levels it may still go down. Below a node of an acyclic document no path is longer
than the number of nodes, so a walk that starts with that many levels sees everything.
-/

namespace Stencil.Document

/-- The nodes below `id`, at most `levels` deep, each after its parent. The nodes below a node are
left out unless `enter` holds of it. -/
def below (d : Document) (enter : NodeId → Bool) : (levels : Nat) → NodeId → List NodeId
  | 0, _ => []
  | levels + 1, id =>
    (d.branches id).flatMap fun b => b.nodes.flatMap fun child =>
      child :: if enter child then d.below enter levels child else []

/-- The nodes met on a walk from `id` that goes below a node only if `enter` holds of it. -/
def walk (d : Document) (id : NodeId) (enter : NodeId → Bool) : List NodeId :=
  d.below enter d.size id

/-- The nodes below `id` of one of the `kinds`, without those below a node of one of the kinds in
`closed`. A node of a closed kind may itself be among them. -/
def descendants (d : Document) (id : NodeId) (kinds closed : List Kind) : List NodeId :=
  (d.walk id fun n => !d.hasKind n closed).filter (d.hasKind · kinds)

/-- A position in a branch: the node, the index of its branch, the index in the branch. -/
structure Slot where
  owner : NodeId
  branch : Nat
  index : Nat
  deriving DecidableEq, Repr

/-- The first slot below `id`, at most `levels` deep, that holds `target`. A node's own slot comes
before the slots below it. -/
def locateBelow (d : Document) (target : NodeId) : (levels : Nat) → NodeId → Option Slot
  | 0, _ => none
  | levels + 1, id =>
    (d.branches id).zipIdx.findSome? fun (b, i) => b.zipIdx.findSome? fun (f, j) =>
      match f with
      | .text _ => none
      | .node child =>
        if child = target then some ⟨id, i, j⟩ else d.locateBelow target levels child

/-- Where in the document a node stands. -/
def locate (d : Document) (target : NodeId) : Option Slot :=
  d.locateBelow target d.size root

end Stencil.Document
