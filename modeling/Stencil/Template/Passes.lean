import Stencil.Doc.Copy
import Stencil.Doc.Edit
import Stencil.Template.Tags
import Stencil.Work

/-!
# Template passes

What happens to the tags of a template once all templates it is made from are put together. Raw
output is left alone, except that sections for debugging are decided everywhere.
-/

namespace Stencil.Template

/-- The nodes of one of some kinds in a template, those in raw output left out. -/
def nodesOf (d : Document) (kinds : List Kind) : List NodeId :=
  d.descendants Document.root kinds [.rawOutput]

/-! ### Configuration -/

/-- One option is changed by name. -/
def changeOption (place : Place) (name : String) : SessionM Unit := do
  let s ← get
  match s.options.change? name with
  | some options => set { s with options }
  | none => throw (.unknownOption place name)

/-- Changes the options that the configuration tags name. -/
def applyConfig : Work Unit := do
  let d ← Work.document
  (nodesOf d [.config]).forM fun tag =>
    ((elements d tag).drop 1).forM fun name => Work.task (changeOption (d.place tag) name)

/-! ### Variables -/

/-- Variables with a known value become their value. -/
def substituteVariables (values : List (String × String)) (d : Document) : Document :=
  (nodesOf d [.variableTag]).foldl (fun d id =>
    match values.lookup (variableName d id) with
    | some value => (d.setKind id .expanded).setChildren id [.text value]
    | none => d) d

/-! ### Macros -/

/-- The definition of a macro, the last one if there are several. -/
def macroNamed? (d : Document) (definitions : List NodeId) (name : String) : Option NodeId :=
  definitions.reverse.find? fun id => argument? d id 1 == some name

/-- Puts a copy of a macro's content in place of a call. Calls of unknown macros stay. -/
def expandCall (definitions : List NodeId) (d : Document) (call : NodeId) : Document :=
  match (argument? d call 1).bind (macroNamed? d definitions) with
  | none => d
  | some definition =>
    let place := d.place call
    let (copy, d) := d.duplicateBranch (d.children definition)
    let (node, d) := d.create .expanded place
    ((d.setChildren node copy).replaceNode call [.node node]).2

/-- Expands the calls of macros and removes the definitions. -/
def expandMacros (d : Document) : Document :=
  let definitions := nodesOf d [.macroDef]
  ((nodesOf d [.callMacro]).foldl (expandCall definitions) d).removeNodes Document.root definitions

/-! ### Debugging -/

/-- Sections for debugging lose their tags, or go. -/
def resolveDebug (debug : Bool) (d : Document) : Document :=
  if debug then d.collapseKind Document.root .ifDebug else d.removeKind Document.root .ifDebug

/-! ### Load tags -/

/-- The tag loads from the future. -/
def isFutureLoad (d : Document) (id : NodeId) : Bool :=
  (elements d id).contains "from" && (elements d id).contains "future"

/-- The fragments of a tag with the given elements, which become new nodes. -/
def makeElements (place : Place) : List String → Document → Branch × Document
  | [], d => ([], d)
  | element :: more, d =>
    let (node, d) := d.create .tagElement place
    let (others, d) := makeElements place more (d.appendText node element)
    (.node node :: (if others.isEmpty then [] else .text " " :: others), d)

/-- Gathers the load tags in one at the top that loads everything once. -/
def groupLoads (d : Document) : Document :=
  match (nodesOf d [.loadTag]).filter (!isFutureLoad d ·) with
  | [] => d
  | first :: others =>
    let modules := ((first :: others).flatMap fun id => (elements d id).drop 1).eraseDups
    let d := d.removeNodes Document.root (first :: others)
    let (b, d) := makeElements (d.place first) ("load" :: modules) d
    (d.setChildren first b).prepend Document.root [.node first]

/-! ### Comments -/

/-- Comments go. -/
def removeComments (d : Document) : Document :=
  d.removeNodes Document.root (nodesOf d [.comment, .longComment])

end Stencil.Template
