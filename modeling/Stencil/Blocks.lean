import Stencil.Doc.Editing

/-!
# Blocks

Nesting folds a flat list with markers: an opening marker becomes a node with a body whose branches hold
what stood between the markers. The separators of a block can be skipped but neither repeated nor taken
out of order. A marker that fits no open block is an ordinary node.
-/

namespace Stencil

/-- How a block goes on after its opening marker. -/
structure BlockRule (κ : Type) where
  /-- The keys of the markers between branches, in the order they may come. -/
  separators : List κ
  closer : κ
  kind : Kind

/-- How many branches a block may need. -/
def maxBranches : Nat := 8

/-- Why a list of blocks makes no table. -/
inductive BlockError where
  | noCloser (kind : Kind)
  | tooManyBranches (kind : Kind) (count : Nat)
  deriving DecidableEq, Repr

/-- The wording of the error. -/
def BlockError.message : BlockError → String
  | noCloser kind => "block mapping: " ++ kind.name ++ " has no terminator"
  | tooManyBranches kind count =>
    "block mapping: " ++ kind.name ++ " needs " ++ toString count ++ " branches, at most " ++
      toString maxBranches ++ " are supported"

/-- The blocks of a notation, by opening key. -/
structure BlockTable (κ : Type) where
  rules : List (κ × BlockRule κ)

namespace BlockTable

variable {κ : Type} [DecidableEq κ]

/-- The rule of the blocks a key opens. -/
def get? (t : BlockTable κ) (key : κ) : Option (BlockRule κ) :=
  t.rules.lookup key

/-- How many keys open a block. -/
def size (t : BlockTable κ) : Nat := t.rules.length

/-- The table with a block for a key, in place of an earlier one. -/
def insert (t : BlockTable κ) (key : κ) (rule : BlockRule κ) : BlockTable κ :=
  ⟨t.rules.filter (·.1 ≠ key) ++ [(key, rule)]⟩

/-- The rule of a block with the given markers after the opening one, the last of which closes. -/
def rule (follow : List κ) (kind : Kind) : Except BlockError (BlockRule κ) :=
  match follow.getLast? with
  | none => .error (.noCloser kind)
  | some closer =>
    if maxBranches < follow.length then .error (.tooManyBranches kind follow.length)
    else .ok { separators := follow.dropLast, closer, kind }

/-- The table of a list of blocks: opening key, markers after it, kind. -/
def build (entries : List (κ × List κ × Kind)) : Except BlockError (BlockTable κ) :=
  entries.foldlM (fun t (key, follow, kind) => do return t.insert key (← rule follow kind)) ⟨[]⟩

end BlockTable

/-- A block that has been opened and not yet closed. -/
structure OpenBlock (κ : Type) where
  node : NodeId
  separators : List κ
  closer : κ
  branch : Nat := 0
  /-- What that branch holds so far, the last fragment first. -/
  content : Branch := []

/-- What a marker does inside a block. -/
inductive MarkerRole (κ : Type) where
  | closes
  | separates (next : OpenBlock κ)
  | content

/-- What a key does inside a block. Closing goes before separating. -/
def OpenBlock.step {κ : Type} [DecidableEq κ] (b : OpenBlock κ) (key : κ) : MarkerRole κ :=
  if b.closer = key then .closes
  else
    match b.separators.idxOf? key with
    | some i => .separates
        { b with branch := b.branch + (i + 1), separators := b.separators.drop (i + 1) }
    | none => .content

/-- How nesting tells markers apart. -/
structure Nesting (κ : Type) where
  table : BlockTable κ
  eligible : List Kind
  classify : Document → NodeId → Option κ

namespace Nesting

variable {κ : Type} [DecidableEq κ]

/-- What a node stands for, if it can be a marker. -/
def key? (n : Nesting κ) (d : Document) (id : NodeId) : Option κ :=
  if d.hasKind id n.eligible then n.classify d id else none

/-- What has been built of a branch. -/
structure Progress (κ : Type) where
  /-- The fragments outside all open blocks, the last first. -/
  out : Branch := []
  blocks : List (OpenBlock κ) := []

/-- Adds a fragment to the innermost open block, or to what is built if none is open. -/
def Progress.put (p : Progress κ) (f : Fragment) : Progress κ :=
  match p.blocks with
  | b :: outer => { p with blocks := { b with content := b.content.stack f } :: outer }
  | [] => { p with out := p.out.stack f }

/-- Writes the branch that is being filled. A branch that nothing was put in is not made. -/
def fill (b : OpenBlock κ) (d : Document) : Document :=
  if b.content.isEmpty then d else d.setBranch b.node b.branch b.content.reverse

/-- Makes an opening marker a node with a body. Its children become the opening of the body. -/
def enter (p : Progress κ) (id : NodeId) (rule : BlockRule κ) : Edit (Progress κ) := do
  Edit.apply (·.setKind id rule.kind)
  let opening ← Edit.takeBranch id 0
  Edit.apply (·.modifyBody id ({ · with opening }))
  return { p with
    blocks := { node := id, separators := rule.separators, closer := rule.closer } :: p.blocks }

/-- Goes on to another branch of the innermost block, behind the marker `id`. -/
def separate (p : Progress κ) (b next : OpenBlock κ) (outer : List (OpenBlock κ)) (id : NodeId) :
    Edit (Progress κ) := do
  Edit.apply (fill b)
  Edit.apply (·.modifyBody b.node fun body =>
    { body with markers := body.markers ++ [(next.branch, id)] })
  let content := ((← get).branch next.node next.branch).reverse
  return { p with blocks := { next with content } :: outer }

/-- A closing marker: the block is complete and goes to what is around it. -/
def close (p : Progress κ) (b : OpenBlock κ) (outer : List (OpenBlock κ)) (id : NodeId) :
    Edit (Progress κ) := do
  Edit.apply (fill b)
  Edit.apply (·.modifyBody b.node ({ · with closing := some id }))
  return { p with blocks := outer }.put (.node b.node)

/-- Takes in one node. A node that is no marker here is kept, and `nested` goes below it. -/
def take (n : Nesting κ) (nested : NodeId → Edit Unit) (p : Progress κ) (id : NodeId) :
    Edit (Progress κ) := do
  let keep : Edit (Progress κ) := do
    nested id
    return p.put (.node id)
  match n.key? (← get) id with
  | none => keep
  | some key =>
    match n.table.get? key, p.blocks with
    | some rule, _ => enter p id rule
    | none, [] => keep
    | none, b :: outer =>
      match b.step key with
      | .closes => close p b outer id
      | .separates next => separate p b next outer id
      | .content => keep

/-- Nests one branch. A block left open at its end is an error; the outermost one is reported. -/
def nestBranch (n : Nesting κ) (nested : NodeId → Edit Unit) (b : Branch) : Edit Branch := do
  let p ← b.foldlM (fun p f => match f with
    | .text _ => return p.put f
    | .node id => n.take nested p id) ({} : Progress κ)
  match p.blocks.getLast? with
  | some outer =>
    let d ← get
    throw (.openBlock (d.place outer.node) (d.kind outer.node))
  | none => return p.out.reverse

/-- Nests the branches of a node and of the nodes kept below it, at most `levels` deep. -/
def nestNode (n : Nesting κ) : (levels : Nat) → NodeId → Edit Unit
  | 0, _ => return
  | levels + 1, id => Edit.mapBranches id (n.nestBranch (n.nestNode levels))

/-- Nests the markers in the branches of a node and below. -/
def nest (n : Nesting κ) (id : NodeId) : Edit Unit := do
  n.nestNode (← get).size id

end Nesting

end Stencil
