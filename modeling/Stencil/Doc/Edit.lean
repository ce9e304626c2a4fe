import Stencil.Doc.Walk

/-!
# Editing a document

Removing nodes, dissolving and replacing them rebuilds the branches they are in fragment by fragment, so
that text which becomes adjacent joins.
-/

namespace Stencil.Document

/-- Rebuilds every branch below `id`, at most `levels` deep, the deepest first. A node is replaced
by the fragments `change` gives for it; text stays. -/
def rebuild (change : NodeId → Document → List Fragment × Document) :
    (levels : Nat) → NodeId → Document → Document
  | 0, _, d => d
  | levels + 1, id, d =>
    (List.range (d.branches id).length).foldl (fun d i =>
      let step := fun (built : Branch × Document) (f : Fragment) =>
        match f with
        | .text _ => (built.1.stack f, built.2)
        | .node child =>
          let (fragments, d) := change child (rebuild change levels child built.2)
          (fragments.foldl Branch.stack built.1, d)
      let (b, d) := (d.branch id i).foldl step ([], d.setBranch id i [])
      d.setBranch id i b.reverse) d

/-- Takes the given nodes out of every branch below `id`. -/
def removeNodes (d : Document) (id : NodeId) (removed : List NodeId) : Document :=
  if removed.isEmpty then d
  else d.rebuild (fun n d => (if removed.contains n then [] else [.node n], d)) d.size id

/-- Takes all nodes of one kind out of every branch below `id`. -/
def removeKind (d : Document) (id : NodeId) (kind : Kind) : Document :=
  d.removeNodes id (d.descendants id [kind] [])

/-- Puts in place of every node of one kind below `id` the fragments of its branches. -/
def collapseKind (d : Document) (id : NodeId) (kind : Kind) : Document :=
  d.rebuild
    (fun n d => if d.kind n = kind then ((d.branches n).flatten, d.clear n) else ([.node n], d))
    d.size id

/-- Puts fragments in place of a node. Answers whether the node was below the root. -/
def replaceNode (d : Document) (target : NodeId) (fragments : List Fragment) : Bool × Document :=
  match d.locate target with
  | none => (false, d)
  | some slot =>
    let list := d.branch slot.owner slot.branch
    let b := Branch.ofFragments
      (list.take slot.index ++ fragments ++ list.drop (slot.index + 1))
    (true, d.setBranch slot.owner slot.branch b)

/-- Puts fragments in front of a node's first branch, as they are. -/
def prepend (d : Document) (id : NodeId) (fragments : List Fragment) : Document :=
  d.setBranch id 0 (fragments ++ d.branch id 0)

end Stencil.Document
