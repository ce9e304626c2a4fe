import Stencil.Doc.Edit
import Stencil.Doc.Editing
import Stencil.Doc.Emission
import Stencil.Script.References
import Stencil.Script.ShortName

/-!
# Renaming of scripts

Every name declared in a private scope gets the first short name that is neither free in the script
nor given in a scope around. References follow the declaration they refer to.
-/

namespace Stencil.Script

/-- A new name for a declaration. -/
structure Renaming where
  declaration : Declaration
  short : String
  deriving DecidableEq, Repr

/-- What renaming did to a script. -/
structure Report where
  free : List String
  /-- The renamings, in the order they were made. -/
  renamed : List Renaming
  deriving DecidableEq, Repr

namespace Report

/-- How many scopes have renamed names. -/
def scopes (r : Report) : Nat :=
  (r.renamed.map (·.declaration.scope)).eraseDups.length

end Report

/-- New names for declarations, one after the other, none of them in `taken` and no two alike. -/
def assign : (taken : List String) → List Declaration → List Renaming
  | _, [] => []
  | taken, e :: more =>
    let short := ShortName.firstFree taken
    { declaration := e, short } :: assign (short :: taken) more

/-- The renamings of a node's own scope, if it is a private one, and those below, at most `levels`
deep. The names in `taken` are not given. -/
def renamingsBelow (d : Document) (ds : List Declaration) (global : NodeId) :
    (levels : Nat) → (taken : List String) → NodeId → List Renaming
  | 0, _, _ => []
  | levels + 1, taken, id =>
    let own := if id == global then [] else assign taken (namesOf ds id)
    let taken := own.map (·.short) ++ taken
    own ++ ((d.branches id).flatMap Branch.nodes).flatMap (renamingsBelow d ds global levels taken)

/-- The nodes of links follow their targets. -/
def follow (links : List (NodeId × NodeId)) (d : Document) : Document :=
  links.foldl (fun d (node, target) =>
    d.modifyNaming node ({ · with target := some target })) d

/-- Declarations get their short names. -/
def rename (renamings : List Renaming) (d : Document) : Document :=
  renamings.foldl (fun d r =>
    d.modifyNaming r.declaration.node ({ · with rename := some r.short })) d

/-- Whether the source of a scope's content starts with an opening brace. -/
def opensWithBrace (d : Document) (scope : NodeId) : Bool :=
  match d.children scope with
  | .text s :: _ => s.toList.head? == some '\x7b'
  | .node first :: _ => (d.sourceOf first).toList.head? == some '\x7b'
  | [] => false

/-- Puts a space in front of the content of scopes that would start with two braces, which a
template would read as the start of a variable. -/
def separateBraces (d : Document) (script : NodeId) : Document :=
  (d.descendants script [.scope] []).foldl (fun d scope =>
    if opensWithBrace d scope then
      let (space, d) := d.create .requiredSpace (d.place scope)
      (d.appendText space " ").prepend scope [.node space]
    else d) d

/-- The names of a script are shortened. -/
def minify (script : NodeId) : Edit Report := do
  let d ← get
  match declarations d script with
  | .error e => throw (.scope e.place e.fault)
  | .ok ds =>
    let rs := references d ds script
    let free := freeNames rs
    let d := follow (repetitions ds ++ links rs) d
    let renamed := renamingsBelow d ds script d.size free script
    set (separateBraces (rename renamed d) script)
    return { free := free.mergeSort (fun a b => decide (a ≤ b)), renamed }

end Stencil.Script
