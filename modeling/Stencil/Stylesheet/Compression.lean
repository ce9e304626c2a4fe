import Stencil.Doc.Document
import Stencil.Text.Blank

/-!
# Blanks of stylesheets

Operators lose the blanks around them. Other blanks become one space, or nothing next to an operator and
at the edges of the stylesheet.
-/

namespace Stencil.Stylesheet

/-- It is an operator. -/
def isOperator (d : Document) : Fragment → Bool
  | .node id => d.kind id == .cssOperator
  | .text _ => false

/-- What is left of a blank between two fragments. At an edge it goes if `edges` says so. -/
def keptBlank (d : Document) (edges : Bool) (before after : Option Fragment) : String :=
  if (edges && (before.isNone || after.isNone)) || before.any (isOperator d) ||
      after.any (isOperator d) then ""
  else " "

/-- Compresses a list of fragments, with `before` the one in front of it. `enter` compresses below
a node. -/
def compressBranch (enter : NodeId → Document → Document) (edges : Bool) :
    (before : Option Fragment) → Branch → Document → Document
  | _, [], d => d
  | before, f :: more, d =>
    let d := match f with
      | .text _ => d
      | .node id =>
        match d.kind id with
        | .cssSpace => d.setChildren id [.text (keptBlank d edges before more.head?)]
        | .cssOperator => d.setChildren id [.text (Text.trim (d.ownText id))]
        | .cssString | .cssUrl => d
        | _ => enter id d
    compressBranch enter edges (some f) more d

/-- Compresses the branches of a node, at most `levels` deep. -/
def compressNode : (levels : Nat) → (edges : Bool) → NodeId → Document → Document
  | 0, _, _, d => d
  | levels + 1, edges, id, d =>
    (List.range (d.branches id).length).foldl (fun d i =>
      compressBranch (compressNode levels false) edges none (d.branch id i) d) d

/-- Removes the blanks below a node that carry no meaning. -/
def compress (d : Document) (id : NodeId) : Document :=
  compressNode d.size true id d

end Stencil.Stylesheet
