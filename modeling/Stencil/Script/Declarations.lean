import Stencil.Error
import Stencil.Script.Compression

/-!
# Declarations of scripts

The scopes of a script are its bracketed blocks and the script itself. A name is declared in the
innermost scope around a `var`, `let` or `const` statement or a `function` keyword, except in the global
scope, since other scripts may use the name. The parameters of a function are declared in its body.

Of two declarations of one name in one scope the first counts, and the later ones follow it.
-/

namespace Stencil.Script

/-- A declaration: `node` declares `name` in `scope`. -/
structure Declaration where
  scope : NodeId
  name : String
  node : NodeId
  deriving DecidableEq, Repr

/-! ### Tokens -/

/-- The node is no blank. -/
def isSignificant (d : Document) (id : NodeId) : Bool :=
  !(d.kind id).isScriptSpace

/-- The node is this keyword. -/
def isKeyword (d : Document) (id : NodeId) (word : String) : Bool :=
  d.kind id == .keyword && d.ownText id == word

/-- A token after which a line break may end the statement. -/
def endsExpression (d : Document) (id : NodeId) : Bool :=
  match d.kind id with
  | .identifier | .number | .doubleQuoted | .singleQuoted | .regex | .parentheses
  | .squareBrackets | .scope => true
  | .keyword => ["this", "true", "false", "null"].contains (d.ownText id)
  | .operator => ["++", "--"].contains (operatorText d id)
  | _ => false

/-- A token that cannot go on with the expression before a line break. -/
def startsExpression (d : Document) (id : NodeId) : Bool :=
  match d.kind id with
  | .identifier | .number | .doubleQuoted | .singleQuoted | .regex | .keyword => true
  | _ => false

/-! ### Parameters -/

/-- The identifiers of a parameter list: identifiers and commas take turns. -/
def parameterNodes (d : Document) : (wantComma : Bool) → List NodeId → Except ScopeError (List NodeId)
  | _, [] => .ok []
  | wantComma, id :: more =>
    if (d.kind id).isScriptSpace then parameterNodes d wantComma more
    else if d.kind id == .identifier && !wantComma then do
      return id :: (← parameterNodes d true more)
    else if wantComma && isOperator d id "," then parameterNodes d false more
    else .error ⟨d.place id, .badParameter⟩

/-- The first of some nodes and those after it, or the fault that the script ends at `keyword`. -/
def nextToken (d : Document) (keyword : NodeId) : List NodeId → Except ScopeError (NodeId × List NodeId)
  | [] => .error ⟨d.place keyword, .scriptEnds⟩
  | id :: more => .ok (id, more)

/-- The declarations of the parameters of a function, given the nodes behind its keyword: a name or
none, the parameters in parentheses, the body. -/
def parameters (d : Document) (keyword : NodeId) (after : List NodeId) :
    Except ScopeError (List Declaration) := do
  let (first, rest) ← nextToken d keyword (after.filter (isSignificant d))
  let (list, rest) ←
    if d.kind first == .identifier then nextToken d keyword rest else pure (first, rest)
  if d.kind list != .parentheses then throw ⟨d.place list, .noParameters⟩
  let found ← parameterNodes d false (d.childNodes list)
  let (body, _) ← nextToken d keyword rest
  if d.kind body != .scope then throw ⟨d.place body, .noFunctionBody⟩
  return found.map fun node => { scope := body, name := d.ownText node, node }

/-! ### Declarations -/

/-- What is known in the middle of a list of tokens. -/
structure Progress where
  armed : Bool := false
  /-- In a declaring statement, where a comma starts another declaration. -/
  statement : Bool := false
  complete : Bool := false
  lineBreak : Bool := false
  deriving DecidableEq, Repr

namespace Progress

/-- A blank is passed. -/
def skip (p : Progress) (d : Document) (id : NodeId) : Progress :=
  { p with lineBreak := p.lineBreak || (p.complete && hasLineBreak d id) }

/-- The progress on meeting a token: a line break may end the statement in front of it. -/
def meet (p : Progress) (d : Document) (id : NodeId) : Progress :=
  let ended := p.statement && p.lineBreak && startsExpression d id
  { armed := p.armed && !ended
    statement := p.statement && !ended
    complete := endsExpression d id
    lineBreak := false }

/-- The progress after a keyword, in a scope that is private or global. -/
def keyword (p : Progress) (isPrivate : Bool) (word : String) : Progress :=
  let declares := isPrivate && ["var", "let", "const"].contains word
  { p with armed := declares || (isPrivate && word == "function"), statement := declares }

/-- An operator is met. -/
def operator (p : Progress) (op : String) : Progress :=
  if op == "," && p.statement then { p with armed := true }
  else { p with armed := false, statement := p.statement && op != ";" }

end Progress

/-- The declarations in a list of nodes that belongs to `scope`. `enter` finds those below a node,
given the scope that the node's own lists belong to. -/
def declarationsIn (d : Document) (isPrivate : Bool) (scope : NodeId)
    (enter : (scope id : NodeId) → Except ScopeError (List Declaration)) :
    Progress → List NodeId → Except ScopeError (List Declaration)
  | _, [] => .ok []
  | p, id :: more =>
    if !isSignificant d id then declarationsIn d isPrivate scope enter (p.skip d id) more
    else
      let p := p.meet d id
      match d.kind id with
      | .keyword => do
        let word := d.ownText id
        let found ← if word == "function" then parameters d id more else pure []
        return found ++ (← declarationsIn d isPrivate scope enter (p.keyword isPrivate word) more)
      | .identifier => do
        let found := if p.armed then [{ scope, name := d.ownText id, node := id }] else []
        return found ++ (← declarationsIn d isPrivate scope enter { p with armed := false } more)
      | .operator =>
        declarationsIn d isPrivate scope enter (p.operator (operatorText d id)) more
      | kind => do
        let found ← enter (if kind == .scope then id else scope) id
        return found ++ (← declarationsIn d isPrivate scope enter { p with armed := false } more)

/-- The declarations below a node whose lists belong to `scope`, at most `levels` deep. -/
def declarationsBelow (d : Document) (global : NodeId) :
    (levels : Nat) → (scope id : NodeId) → Except ScopeError (List Declaration)
  | 0, _, _ => .ok []
  | levels + 1, scope, id => do
    let found ← (d.branches id).mapM fun b =>
      declarationsIn d (scope != global) scope (declarationsBelow d global levels) {} b.nodes
    return found.flatten

/-- All declarations of a script. -/
def declarations (d : Document) (script : NodeId) : Except ScopeError (List Declaration) :=
  declarationsBelow d script d.size script script

/-! ### What is declared where -/

/-- The first declaration of a name in a scope. -/
def declarationOf? (ds : List Declaration) (scope : NodeId) (name : String) : Option Declaration :=
  ds.find? fun e => e.scope == scope && e.name == name

/-- The declarations that count in a scope: for each name the first one. -/
def namesOf (ds : List Declaration) (scope : NodeId) : List Declaration :=
  (ds.filter fun e => e.scope == scope).filter fun e =>
    declarationOf? ds scope e.name == some e

/-- The declarations that follow an earlier one of the same name in the same scope, with the node
of that one. -/
def repetitions (ds : List Declaration) : List (NodeId × NodeId) :=
  ds.filterMap fun e =>
    match declarationOf? ds e.scope e.name with
    | some first => if first == e then none else some (e.node, first.node)
    | none => none

end Stencil.Script
