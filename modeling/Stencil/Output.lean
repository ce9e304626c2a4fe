import Stencil.Doc.Emission
import Stencil.Template.Tags

/-!
# Compiled output

The manner in which a compiled template is written. Tags and variables take their shortest form,
comments and configuration vanish, raw output is as it was in the source, and a `url()` value is
quoted. All else is written by default.
-/

namespace Stencil

namespace Output

/-- The text inside single quotes: quotes and backslashes get a backslash. -/
def escapeUrl (s : String) : String :=
  String.ofList (s.toList.flatMap fun c => if c == '\'' || c == '\\' then ['\\', c] else [c])

/-- The content of a node as in the source. -/
def raw (d : Document) (id : NodeId) : String :=
  d.writeBranches d.sourceOf id

/-- A `url()` value in quotes. -/
def url (d : Document) (write : NodeId → String) (id : NodeId) : String :=
  "url('" ++ String.join ((d.children id).map fun
    | .text s => escapeUrl s
    | .node child => write child) ++ "')"

/-- The manner of compiled output. -/
def manner : Manner := fun d write id =>
  match d.kind id with
  | .tag | .extendsTag | .includeTag | .loadTag | .transTag | .pluralTag | .urlTag | .callMacro =>
    some (Template.canonicalTag (Template.elements d id))
  | .variableTag => some ("\x7b\x7b" ++ Template.variableName d id ++ "\x7d\x7d")
  | .comment | .longComment | .config => some ""
  | .rawOutput => some (raw d id)
  | .compress => some (d.writeBranches write id)
  | .cssUrl => some (url d write id)
  | kind =>
    if kind.isTemplateBlock then
      (d.node id).body?.map fun body =>
        Template.canonicalTag (Template.elements d id) ++
          Document.writeBody write (d.branches id) body
    else none

end Output

namespace Document

/-- A node as compiled output. -/
def outputOf (d : Document) (id : NodeId) : String :=
  d.render Output.manner id

/-- The document as compiled output. -/
def output (d : Document) : String :=
  d.outputOf root

end Document

end Stencil
