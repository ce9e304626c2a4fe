import Stencil.Doc.Copy
import Stencil.Doc.Edit
import Stencil.Template.Tags
import Stencil.Work

/-!
# Templates from other templates

A template can extend another one, include others, and decorate a part of itself with others. Each
of these loads a template and puts copies of content in place of a tag or a variable. Raw output is
left alone by all of them.
-/

namespace Stencil.Template

/-- How the template with a given name, referred to at a place, is loaded. -/
abbrev Loader := (name : String) → Place → SessionM Document

/-- Puts a copy of `content` in place of every variable of a given name below a node. -/
def fillVariable (id : NodeId) (name : String) (content : Branch) (d : Document) : Document :=
  (d.descendants id [.variableTag] [.rawOutput]).foldl (fun d variableId =>
    if variableName d variableId == name then
      let (copy, d) := d.duplicateBranch content
      (d.setKind variableId .expanded).setChildren variableId copy
    else d) d

/-- A copy of a whole template, to be put in place of a tag. -/
def embed (template d : Document) : NodeId × Document :=
  let (id, d) := d.graft template Document.root
  (id, d.setKind id .expanded)

/-! ### Extending -/

/-- The blocks of a template. -/
def blockNodes (d : Document) : List NodeId :=
  d.descendants Document.root [.block] [.rawOutput]

/-- The block of a template that has a given name, the last one if there are several. -/
def blockNamed? (d : Document) (name : String) : Option NodeId :=
  (blockNodes d).reverse.find? fun id => argument? d id 1 == some name

/-- Gives a block of the parent the content of the child's block of the same name, if there is one.
What the child calls `block.super` is the content the block had. -/
def overrideBlock (child base : Document) (block : NodeId) : Document :=
  match (argument? base block 1).bind (blockNamed? child) with
  | none => base
  | some replacement =>
    let (copy, base) := base.graft child replacement
    let base := fillVariable copy "block.super" (base.children block) base
    (base.setBranch copy 0 []).setBranch block 0 (base.branch copy 0)

/-- Overrides every block of the parent that the child has too. -/
def overrideBlocks (child base : Document) : Document :=
  (blockNodes base).foldl (overrideBlock child) base

/-- The nodes of one of some kinds that stand at the top of a template. -/
def topNodes (d : Document) (kinds : List Kind) : List NodeId :=
  (d.childNodes Document.root).filter (d.hasKind · kinds)

/-- The first block at the top of the child that the parent does not have. -/
def orphan? (child base : Document) : Option NodeId :=
  let names := (blockNodes base).map (argument? base · 1)
  (topNodes child [.block]).find? fun id =>
    match argument? child id 1 with
    | some name => !names.contains (some name)
    | none => true

/-- Puts copies of the child's load and configuration tags at the top of the parent. -/
def hoistTags (child base : Document) : Document :=
  let (copies, base) := (topNodes child [.loadTag, .config]).foldl (fun (copies, base) id =>
    let (copy, base) := Document.graft base child id
    (copies ++ [Fragment.node copy], base)) (([] : List Fragment), base)
  base.prepend Document.root copies

/-- Complains about a block that the parent does not have. -/
def reportOrphan (child : Document) (id : NodeId) : SessionM Unit := do
  let fault := TemplateFault.orphanBlock ((argument? child id 1).getD "")
  if (← get).options.disallowOrphanBlocks then throw (.template (child.place id) fault)
  else modify (·.warn (child.place id) fault.message)

/-- The template with what it extends: the parent, in which blocks are overridden. A template that
extends nothing stays as it is. -/
def extend (load : Loader) (child : Document) : SessionM Document := do
  match (topNodes child [.extendsTag]).head? with
  | none => return child
  | some tag =>
    match literalArgument? child tag 1 with
    | none => throw (.template (child.place tag) .variableParent)
    | some name => do
      let base ← load name (child.place tag)
      if let some id := orphan? child base then reportOrphan child id
      return hoistTags child (overrideBlocks child base)

/-- The template takes the place of what it extends. -/
def expandExtends (load : Loader) : Work Unit := do
  let document ← Work.task (extend load (← Work.document))
  Work.apply fun _ => document

/-! ### Including -/

/-- The template that an include tag asks for by its literal name alone. -/
def includedName? (d : Document) (id : NodeId) : Option String :=
  match elements d id with
  | [_, name] => literal? name
  | _ => none

/-- Puts a template in place of an include tag. Tags that do not name it literally, or say more,
stay. -/
def expandInclude (load : Loader) (id : NodeId) : Work Unit := do
  let d ← Work.document
  match includedName? d id with
  | none => return
  | some name => do
    let template ← Work.task (load name (d.place id))
    Work.apply fun d =>
      let (node, d) := embed template d
      (d.replaceNode id [.node node]).2

/-- All include tags are replaced. -/
def expandIncludes (load : Loader) : Work Unit := do
  ((← Work.document).descendants Document.root [.includeTag] [.rawOutput]).forM
    (expandInclude load)

/-! ### Decorating -/

/-- Puts a template in place of a decorate tag, with the content of the tag in place of what the
template calls `decorater.content`. Gives the node of the template. -/
def expandDecorate (load : Loader) (id : NodeId) : Work NodeId := do
  let d ← Work.document
  match literalArgument? d id 1 with
  | none => throw (.template (d.place id) .variableDecorator)
  | some name => do
    let template ← Work.task (load name (d.place id))
    let node ← Work.perform (embed template)
    Work.apply fun d =>
      ((fillVariable node "decorater.content" (d.children id) d).replaceNode id [.node node]).2
    return node

/-- Expands the decorate tags below a node, and those in what takes their place, which are nested
at most `levels` deep. -/
def expandDecoratesBelow (load : Loader) : (levels : Nat) → NodeId → Work Unit
  | 0, _ => return
  | levels + 1, id => do
    ((← Work.document).descendants id [.decorate] [.decorate, .rawOutput]).forM fun tag => do
      expandDecoratesBelow load levels (← expandDecorate load tag)

/-- Expands the decorate tags of a template. A tag inside another is copied with the other's
content and expanded there. -/
def expandDecorates (load : Loader) : Work Unit := do
  expandDecoratesBelow load (← Work.document).size Document.root

end Stencil.Template
