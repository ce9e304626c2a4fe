import Stencil.Doc.Editing
import Stencil.Lexing.Grammar

/-!
# Splitting a document into tokens

A run reads the text of a branch under a grammar and builds the branch anew out of tokens. What is read
goes into the innermost open token, or to the branch itself if none is open.

Nodes in the branch are treated by kind. A node that is read through is dissolved: its branches are read
by the same run, as if their text stood in its place. A node that is entered has each of its branches
read by a run of its own and is then kept.
-/

namespace Stencil

/-- A token that has been opened and not yet closed. -/
structure OpenToken where
  node : NodeId
  /-- What it holds so far, the last fragment first. -/
  content : Branch := []

/-- The state of a run. -/
structure Run (σ : Type) where
  /-- The states above the initial one, the current state first. -/
  states : List σ := []
  opened : List OpenToken := []
  /-- What has been built so far outside of tokens, the last fragment first. -/
  out : Branch := []
  place : Place
  /-- How many characters of the current stretch lie behind. -/
  offset : Nat := 0
  /-- The part of the current stretch that lies behind, the nearest character first. -/
  behind : List Char := []
  /-- The part of the current stretch that lies ahead. -/
  ahead : List Char := []

namespace Run

variable {σ : Type}

/-- The state the run is in. -/
def state (g : Grammar σ) (r : Run σ) : σ := r.states.headD g.initial

/-- The run is at another line and column. -/
def seek (r : Run σ) (p : Place) : Run σ :=
  { r with place := { r.place with line := p.line, column := p.column } }

/-- The run moves behind the text that matched. -/
def shift (r : Run σ) (matched : List Char) : Run σ :=
  { r with
    place := r.place.advance matched
    offset := r.offset + matched.length
    behind := matched.reverse ++ r.behind
    ahead := r.ahead.drop matched.length }

/-- The run has a text to read. -/
def load (r : Run σ) (text : String) : Run σ :=
  { r with offset := 0, behind := [], ahead := text.toList }

/-- As many characters as it takes to fill `bytes` bytes of UTF-8, the last one included. -/
def takeBytes : (bytes : Nat) → List Char → List Char
  | _, [] => []
  | bytes, c :: cs => if bytes = 0 then [] else c :: takeBytes (bytes - c.utf8Size) cs

/-- The text around the current position that a diagnostic shows: 20 bytes on each side, and more
where that would split a character. -/
def near (r : Run σ) : String :=
  String.ofList ((takeBytes 20 r.behind).reverse ++ takeBytes 20 r.ahead)

/-- The run stops where it is. -/
def fail {α : Type} (r : Run σ) (fault : LexFault) : Edit α :=
  throw (.lex r.place fault r.near)

/-- Adds a fragment to the innermost open token, or to what is built if none is open. -/
def append (r : Run σ) (f : Fragment) : Run σ :=
  match r.opened with
  | token :: opened =>
    { r with opened := { token with content := token.content.stack f } :: opened }
  | [] => { r with out := r.out.stack f }

/-- A token is opened. -/
def start (r : Run σ) (kind : Kind) : Edit (Run σ) := do
  let node ← Edit.perform (·.create kind r.place)
  return { r with opened := { node } :: r.opened }

/-- The innermost token is closed. -/
def stop (r : Run σ) : Edit (Run σ) :=
  match r.opened with
  | [] => r.fail .unbalancedClose
  | token :: opened => do
    Edit.apply (·.setBranch token.node 0 token.content.reverse)
    return { r with opened }.append (.node token.node)

/-- Carries out one action. The flag says whether the matched text still lies ahead. -/
def act (r : Run σ) (matched : List Char) (pending : Bool) : LexAction σ → Edit (Run σ × Bool)
  | .push state => return ({ r with states := state :: r.states }, pending)
  | .pop =>
    match r.states with
    | [] => r.fail .leftFirstState
    | _ :: states => return ({ r with states }, pending)
  | .record => return (r.append (.text (String.ofList matched)), pending)
  | .replace text => return (r.append (.text text), pending)
  | .shift => return (if pending then r.shift matched else r, false)
  | .start kind => return (← r.start kind, pending)
  | .stop => return (← r.stop, pending)
  | .fail reason => r.fail (.refused reason)

/-- The actions of a rule, in order. -/
def perform (matched : List Char) : List (LexAction σ) → (pending : Bool) → Run σ → Edit (Run σ)
  | [], _, r => return r
  | a :: as, pending, r => do
    let (r, pending) ← r.act matched pending a
    perform matched as pending r

/-- Whether a rule has changed nothing that later rules depend on: the position, the current state
and the heights of the stacks. -/
def stuck [DecidableEq σ] (g : Grammar σ) (rule : Rule σ) (before after : Run σ) : Bool :=
  after.offset == before.offset && after.state g == before.state g && rule.isLevel

/-- The first rule that applies is taken. -/
def step [DecidableEq σ] (g : Grammar σ) (r : Run σ) : Edit (Run σ) :=
  match g.next? (r.state g) r.ahead with
  | none => r.fail (.noTransition (g.label (r.state g)))
  | some (rule, matched) => do
    let after ← perform matched rule.actions true r
    if stuck g rule r after then after.fail (.noProgress (g.label (r.state g))) else return after

/-- Applies rules until the stretch is read, at most `limit` of them. -/
def scan [DecidableEq σ] (g : Grammar σ) : (limit : Nat) → Run σ → Edit (Run σ)
  | 0, r => if r.ahead.isEmpty then return r else r.fail (.endless (g.label (r.state g)))
  | limit + 1, r => if r.ahead.isEmpty then return r else do scan g limit (← r.step g)

/-- How many rules may apply in one stretch. Rules that do not move on can fill the stacks and empty
them again, and a few states are enough to do so for a long time. The bound is out of reach of all
that can be carried out, so a run that would meet it is one that never ends. -/
def limit (r : Run σ) : Nat :=
  (1 <<< 40) * (r.ahead.length + r.states.length + r.opened.length + 1)

/-- A text is read to its end. -/
def read [DecidableEq σ] (g : Grammar σ) (r : Run σ) (text : String) : Edit (Run σ) :=
  let r := r.load text
  r.scan g r.limit

/-- Reads a branch, with `stretch` the text before it that is not read yet. Nodes are left to
`visit`. -/
def feed [DecidableEq σ] (g : Grammar σ) (visit : NodeId → Run σ → Edit (Run σ)) :
    Branch → (stretch : String) → Run σ → Edit (Run σ)
  | [], stretch, r => r.read g stretch
  | .text s :: more, stretch, r => feed g visit more (stretch ++ s) r
  | .node id :: more, stretch, r => do
    let r ← r.read g stretch
    let r ← visit id r
    feed g visit more "" r

/-- Ends a run: no token may be open, and the text may end in every state above the initial one. -/
def finish (g : Grammar σ) (r : Run σ) : Edit Branch := do
  match r.opened with
  | token :: _ =>
    let d ← get
    throw (.openToken (d.place token.node) (d.kind token.node))
  | [] =>
    match r.states.find? (!g.mayEnd ·) with
    | some state => throw (.openState r.place (g.label state))
    | none => return r.out.reverse

end Run

namespace Grammar

variable {σ : Type} [DecidableEq σ]

/-- Reads every branch of a node by a run of its own, which starts at the node's place. -/
def tokenizeBranches (g : Grammar σ) (visit : NodeId → Run σ → Edit (Run σ)) (id : NodeId) :
    Edit Unit := do
  let place := (← get).place id
  Edit.mapBranches id fun b => do
    let r ← Run.feed g visit b "" { place }
    r.finish g

/-- Treats a node met by a run, going at most `levels` deep: nodes of a kind in `through` are
dissolved, nodes of a kind in `enter` are tokenized and kept, others are kept. -/
def visit (g : Grammar σ) (through enter : List Kind) :
    (levels : Nat) → NodeId → Run σ → Edit (Run σ)
  | 0, _, r => return r
  | levels + 1, id, r => do
    if (← get).hasKind id through then
      let r := r.seek ((← get).place id)
      (← Edit.takeBranches id).foldlM
        (fun r b => Run.feed g (g.visit through enter levels) b "" r) r
    else
      if (← get).hasKind id enter then tokenizeBranches g (g.visit through enter levels) id
      return r.append (.node id)

/-- The branches of a node are split into tokens. -/
def tokenize (g : Grammar σ) (through enter : List Kind) (id : NodeId) : Edit Unit := do
  tokenizeBranches g (g.visit through enter (← get).size) id

end Grammar

end Stencil
