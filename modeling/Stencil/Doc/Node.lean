import Stencil.Doc.Kind

/-!
# Nodes

A node with a body, made out of an opening and a closing marker, keeps what the opening marker held, the
markers between its branches and the closing marker. An identifier of a script may have been given a new
name, or follow the name of another identifier.
-/

namespace Stencil

/-- A position in a source file. Lines and columns count from one, columns in characters. -/
structure Place where
  path : String
  line : Nat
  column : Nat
  deriving DecidableEq, Repr, Inhabited

namespace Place

/-- The start of a file. -/
def startOf (path : String) : Place := ⟨path, 1, 1⟩

/-- The place behind a character. -/
def next (p : Place) (c : Char) : Place :=
  if c = '\n' then { p with line := p.line + 1, column := 1 }
  else { p with column := p.column + 1 }

/-- The place behind a text. -/
def advance (p : Place) (text : List Char) : Place :=
  text.foldl next p

/-- The wording of a place. -/
def describe (p : Place) : String :=
  "In: " ++ p.path ++ "\nLine " ++ toString p.line ++ ", column " ++ toString p.column

end Place

/-- The number of a node in its document. -/
abbrev NodeId := Nat

/-- One entry of a branch. -/
inductive Fragment where
  | text (s : String)
  | node (id : NodeId)
  deriving DecidableEq, Repr, Inhabited

/-- The node, if the fragment is one. -/
def Fragment.node? : Fragment → Option NodeId
  | .node id => some id
  | .text _ => none

/-- What stands side by side. -/
abbrev Branch := List Fragment

namespace Branch

/-- Adds a fragment at the end. Empty text vanishes, and text joins the text in front of it. -/
def push (b : Branch) : Fragment → Branch
  | .node id => b ++ [.node id]
  | .text s =>
    if s = "" then b
    else match b.getLast? with
      | some (.text t) => b.dropLast ++ [.text (t ++ s)]
      | _ => b ++ [.text s]

/-- Adds a fragment to a branch that is held in reverse, the last fragment first. -/
def stack (b : Branch) : Fragment → Branch
  | .node id => .node id :: b
  | .text s =>
    if s = "" then b
    else match b with
      | .text t :: more => .text (t ++ s) :: more
      | _ => .text s :: b

/-- The branch of some fragments, added one after the other. -/
def ofFragments (fragments : List Fragment) : Branch :=
  (fragments.foldl stack []).reverse

/-- The nodes of a branch. -/
def nodes (b : Branch) : List NodeId :=
  b.filterMap Fragment.node?

/-- The text of a branch, its nodes left out. -/
def text (b : Branch) : String :=
  String.join (b.map fun | .text s => s | .node _ => "")

end Branch

/-- What a node with a body keeps of its markers. -/
structure Body where
  opening : Branch := []
  /-- The markers between branches, each with the index of the branch it starts. -/
  markers : List (Nat × NodeId) := []
  closing : Option NodeId := none
  deriving DecidableEq, Repr, Inhabited

/-- What is known about the name of an identifier. -/
structure Naming where
  rename : Option String := none
  /-- The identifier whose name is used instead, for a reference. -/
  target : Option NodeId := none
  deriving DecidableEq, Repr, Inhabited

/-- What a node carries besides its branches. -/
inductive Payload where
  | none
  | body (b : Body)
  | naming (n : Naming)
  deriving DecidableEq, Repr, Inhabited

/-- A node of a document. A new one has a single empty branch. -/
structure Node where
  kind : Kind
  place : Place
  branches : List Branch := [[]]
  payload : Payload := .none
  deriving DecidableEq, Repr, Inhabited

namespace Node

/-- The first branch. -/
def children (n : Node) : Branch := n.branches.headD []

/-- The body, if the node has one. -/
def body? (n : Node) : Option Body :=
  match n.payload with
  | .body b => some b
  | _ => none

/-- The body, or an empty one. -/
def body (n : Node) : Body := n.body?.getD {}

/-- The naming, if the node has one. -/
def naming? (n : Node) : Option Naming :=
  match n.payload with
  | .naming m => some m
  | _ => none

/-- The naming of a node, an empty one where it has none. -/
def naming (n : Node) : Naming := n.naming?.getD {}

/-- One branch, empty if there is none. -/
def branch (n : Node) (i : Nat) : Branch := n.branches.getD i []

/-- The node with empty branches added until index `i` exists. -/
def grow (n : Node) (i : Nat) : Node :=
  { n with branches := n.branches ++ List.replicate (i + 1 - n.branches.length) [] }

/-- One branch is replaced. -/
def setBranch (n : Node) (i : Nat) (b : Branch) : Node :=
  { n with branches := (n.grow i).branches.set i b }

/-- The nodes a node refers to: in its opening marker, its markers, its branches, its closing. -/
def references (n : Node) : List NodeId :=
  n.body.opening.nodes ++ n.body.markers.map (·.2) ++ n.branches.flatMap Branch.nodes ++
    n.body.closing.toList

end Node

end Stencil
