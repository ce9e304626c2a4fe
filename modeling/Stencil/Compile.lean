import Stencil.Markup.Process
import Stencil.Template.Inherit
import Stencil.Template.Parse
import Stencil.Template.Passes

/-!
# Compiling templates

A template is read, put together with the templates it extends, includes and is decorated with, and then
goes through the passes its options ask for. Templates may refer to each other, but none may be read
inside itself.
-/

namespace Stencil

/-- Reads a document as a template and puts it together with the templates it refers to. -/
def assemble (load : Template.Loader) : Work Unit := do
  Work.edit Template.parse
  Template.expandExtends load
  Template.expandIncludes load
  Template.expandDecorates load

/-- Does work on the document of a source file and gives the document. -/
def onSource (path source : String) (w : Work Unit) : SessionM Document := fun session =>
  match w { session, document := Document.ofSource path source } with
  | .ok _ j => .ok j.document j.session
  | .error e j => .error e j.session

/-- Loads templates, at most `depth` of them one inside the other. If there are fewer names than that,
a template inside so many others has the name of one of them, and is refused for this. -/
def loadTemplate : (depth : Nat) → Template.Loader
  | 0, name, place => throw (.template place (.tooDeep name))
  | depth + 1, name, place => do
    let source ← SessionM.load name place
    SessionM.reading name place (onSource name source (assemble (loadTemplate depth)))

/-- How a session loads templates. -/
def Session.loader (s : Session) : Template.Loader :=
  loadTemplate (s.templates.capacity + 1)

/-- The passes over a template that has been put together. -/
def finishTemplate : Work Unit := do
  Template.applyConfig
  let o ← Work.options
  Work.onlyIf o.preprocessVariables (Work.apply (Template.substituteVariables o.knownVariables))
  Work.onlyIf o.removeBlockTags (Work.apply (·.collapseKind Document.root .block))
  Work.onlyIf o.preprocessMacros (Work.apply Template.expandMacros)
  Work.onlyIf o.preprocessIfdebug (Work.apply (Template.resolveDebug o.debug))
  Work.onlyIf o.mergeAllLoadTags (Work.apply Template.groupLoads)
  Work.apply Template.removeComments
  Work.onlyIf o.isHtml Markup.process

/-- Reads a template; the main template also goes through the passes. -/
def parseTemplate (path source : String) (main : Bool) : SessionM Document := do
  let load := (← get).loader
  onSource path source do
    assemble load
    Work.onlyIf main finishTemplate

/-- The text a template compiles to. -/
def compileTemplate (path source : String) : SessionM String := do
  return (← parseTemplate path source true).output

end Stencil
