import Stencil.Doc.Document
import Stencil.Text.Blank

/-!
# Blanks of scripts

A run of blanks goes at the edges of a bracketed list and next to punctuation, and becomes one space
elsewhere. A line break is kept unless it stands next to an operator that cannot end a statement, since
it may be what separates two statements.
-/

namespace Stencil.Script

/-- Whether a fragment is a node whose kind satisfies `p`. -/
def isNodeOf (d : Document) (p : Kind → Bool) : Fragment → Bool
  | .node id => p (d.kind id)
  | .text _ => false

/-- It needs no blank beside it. -/
def isPunctuation : Kind → Bool
  | .operator | .scope | .parentheses | .squareBrackets | .doubleQuoted | .singleQuoted => true
  | _ => false

/-- It is a bracketed list. -/
def isBracketed : Kind → Bool
  | .scope | .parentheses | .squareBrackets => true
  | _ => false

/-- The text of an operator without the blanks around it. -/
def operatorText (d : Document) (id : NodeId) : String :=
  Text.trim (d.ownText id)

/-- The node is this operator. -/
def isOperator (d : Document) (id : NodeId) (operator : String) : Bool :=
  d.kind id == .operator && operatorText d id == operator

/-- An operator next to which a line break means nothing: any but `+` and `-`, which may belong to
the statement on either side. -/
def absorbsLineBreak (d : Document) : Fragment → Bool
  | .node id => d.kind id == .operator && !(["+", "-"].contains (operatorText d id))
  | .text _ => false

/-- There is a line break in its text. -/
def hasLineBreak (d : Document) (id : NodeId) : Bool :=
  (d.ownText id).toList.contains '\n'

/-- What is left of a run of blanks between two fragments, in a list that is bracketed or not. -/
def keptBlank (d : Document) (bracketed lineBreak : Bool) (before after : Option Fragment) :
    String :=
  match before, after with
  | some before, some after =>
    if lineBreak then
      if absorbsLineBreak d before || absorbsLineBreak d after then "" else "\n"
    else if isNodeOf d isPunctuation before || isNodeOf d isPunctuation after then "" else " "
  | _, _ => if bracketed then "" else if lineBreak then "\n" else " "

/-- Puts `text` in the first node of a run of blanks and nothing in the others. -/
def setRun (text : String) : List NodeId → Document → Document
  | [], d => d
  | first :: others, d =>
    others.foldl (fun d id => d.setChildren id [.text ""]) (d.setChildren first [.text text])

/-- Compresses a list of fragments. `before` is the fragment in front of the current run of
blanks, and `run` that run, the last node first; `enter` compresses below a node. -/
def compressBranch (enter : NodeId → Document → Document) (bracketed : Bool) :
    (before : Option Fragment) → (run : List NodeId) → Branch → Document → Document
  | before, run, [], d => setRun (blank d before run none) run.reverse d
  | before, run, .node id :: more, d =>
    if d.kind id == .scriptSpace then compressBranch enter bracketed before (id :: run) more d
    else
      let d := setRun (blank d before run (some (.node id))) run.reverse d
      let d := if d.kind id == .operator then d.setChildren id [.text (operatorText d id)]
        else enter id d
      compressBranch enter bracketed (some (.node id)) [] more d
  | before, run, .text s :: more, d =>
    let d := setRun (blank d before run (some (.text s))) run.reverse d
    compressBranch enter bracketed (some (.text s)) [] more d
where
  blank (d : Document) (before : Option Fragment) (run : List NodeId) (after : Option Fragment) :
      String :=
    keptBlank d bracketed (run.any (hasLineBreak d)) before after

/-- Compresses the branches of a node, at most `levels` deep. -/
def compressNode : (levels : Nat) → (bracketed : Bool) → NodeId → Document → Document
  | 0, _, _, d => d
  | levels + 1, bracketed, id, d =>
    (List.range (d.branches id).length).foldl (fun d i =>
      let enter := fun child d => compressNode levels (isBracketed (d.kind child)) child d
      compressBranch enter bracketed none [] (d.branch id i) d) d

/-- Removes the blanks below a node that carry no meaning. -/
def compress (d : Document) (id : NodeId) : Document :=
  compressNode d.size true id d

end Stencil.Script
