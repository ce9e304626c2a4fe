import Stencil.Doc.Document
import Stencil.Error

/-!
# Changes that may fail

A change of a document that may stop with an error. What was done before the error stays done.
-/

namespace Stencil

/-- A change of a document that gives an `α` or stops with an error. -/
abbrev Edit := EStateM Error Document

namespace Edit

/-- A change that does not fail. -/
def apply (f : Document → Document) : Edit Unit :=
  modify f

/-- A change that does not fail and has a result. -/
def perform {α : Type} (f : Document → α × Document) : Edit α :=
  modifyGet f

/-- Takes a branch out of a node and leaves an empty one. -/
def takeBranch (id : NodeId) (i : Nat) : Edit Branch :=
  perform fun d => (d.branch id i, d.setBranch id i [])

/-- Takes all branches out of a node and leaves a single empty one. -/
def takeBranches (id : NodeId) : Edit (List Branch) :=
  perform fun d => (d.branches id, d.clear id)

/-- Takes the branches of a node out one after the other, and puts back what `f` makes of each.
If `f` fails the branch stays empty. -/
def mapBranches (id : NodeId) (f : Branch → Edit Branch) : Edit Unit := do
  let count := ((← get).branches id).length
  (List.range count).forM fun i => do
    let b ← f (← takeBranch id i)
    apply (·.setBranch id i b)

end Edit

end Stencil
