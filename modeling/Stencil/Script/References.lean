import Stencil.Script.Declarations

/-!
# References of scripts

An identifier that declares nothing refers to the declaration of its name in the innermost scope
around it that has one; else the name is free. Properties and keys of objects are no references.
-/

namespace Stencil.Script

/-- A reference: `node` stands for `name`, declared by `target` if anywhere. -/
structure Reference where
  node : NodeId
  name : String
  target : Option NodeId
  deriving DecidableEq, Repr

/-- How many `?` are still without their `:` after some nodes, the nearest first. -/
def openConditionals (d : Document) (before : List NodeId) : Nat :=
  before.foldr (fun id count =>
    if isOperator d id "?" then count + 1
    else if isOperator d id ":" then count - 1
    else count) 0

/-- A dot is in front. -/
def isProperty (d : Document) (previous : Option NodeId) : Bool :=
  previous.any (isOperator d · ".")

/-- The key of an object: a colon follows, which neither belongs to a `?` earlier in the list nor
to a `case`. -/
def isObjectKey (d : Document) (before : List NodeId) (previous next : Option NodeId) : Bool :=
  next.any (isOperator d · ":") && !previous.any (isKeyword d · "case") &&
    openConditionals d before == 0

/-- Whether the identifier between two lists of nodes, both from the nearest on, is neither a
property nor a key. -/
def isReference (d : Document) (before after : List NodeId) : Bool :=
  let previous := before.find? (isSignificant d)
  let next := after.find? (isSignificant d)
  !isProperty d previous && !isObjectKey d before previous next

/-- The node that declares a name, as seen from inside some scopes, the innermost first. -/
def resolve? (ds : List Declaration) (scopes : List NodeId) (name : String) : Option NodeId :=
  scopes.findSome? fun scope => (declarationOf? ds scope name).map (·.node)

/-- The references in a list of nodes, with `before` the nodes in front of it, the nearest first.
`enter` finds those below a node, given the scopes around its lists. -/
def referencesIn (d : Document) (ds : List Declaration) (scopes : List NodeId)
    (enter : (scopes : List NodeId) → NodeId → List Reference) :
    (before : List NodeId) → List NodeId → List Reference
  | _, [] => []
  | before, id :: more =>
    let found :=
      match d.kind id with
      | .identifier =>
        if !ds.any (·.node == id) && isReference d before more then
          let name := d.ownText id
          [{ node := id, name, target := resolve? ds scopes name }]
        else []
      | .scope => enter (id :: scopes) id
      | _ => enter scopes id
    found ++ referencesIn d ds scopes enter (id :: before) more

/-- The references below a node, up to a number of levels. -/
def referencesBelow (d : Document) (ds : List Declaration) :
    (levels : Nat) → (scopes : List NodeId) → NodeId → List Reference
  | 0, _, _ => []
  | levels + 1, scopes, id =>
    (d.branches id).flatMap fun b =>
      referencesIn d ds scopes (referencesBelow d ds levels) [] b.nodes

/-- All references of a script. -/
def references (d : Document) (ds : List Declaration) (script : NodeId) : List Reference :=
  referencesBelow d ds d.size [script] script

/-- The references that are declared somewhere, with the node that declares them. -/
def links (rs : List Reference) : List (NodeId × NodeId) :=
  rs.filterMap fun r => r.target.map (r.node, ·)

/-- The names of references that are declared nowhere, each once. -/
def freeNames (rs : List Reference) : List String :=
  ((rs.filter (·.target.isNone)).map (·.name)).eraseDups

end Stencil.Script
