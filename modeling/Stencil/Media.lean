import Stencil.Output
import Stencil.Work

/-!
# Media

A file is compiled once for a key and then taken from the cache. A region of a template that is plain
text is treated as a file; if that fails, and if there are tags in it, it is compiled in its document, so
that an error points into the template.
-/

namespace Stencil

/-- A language of media. -/
structure Language where
  keyParts : (source : String) → List String
  /-- Splits the text below a node into tokens and compresses it. The text of nodes of a kind in
  `through` is read as part of it, and nodes of a kind in `enter` are compressed on their own. -/
  process : (through enter : List Kind) → NodeId → Edit Unit

namespace Language

/-- The compiled text of a source, as a document of its own. -/
def compileSource (l : Language) (path source : String) : Except Error String :=
  match l.process [] [] Document.root (Document.ofSource path source) with
  | .ok _ d => .ok d.output
  | .error e _ => .error e

/-- The compiled text, from the cache if it is there. -/
def compileCached (l : Language) (path source : String) : SessionM (Except Error String) :=
  SessionM.cached (Key.ofParts (l.keyParts source)) fun _ => l.compileSource path source

/-- The compiled text of a file. -/
def compileFile (l : Language) (path source : String) : SessionM String := do
  match ← l.compileCached path source with
  | .ok compiled => return compiled
  | .error e => throw e

end Language

namespace Region

/-- The markup that makes up the text of a region. -/
def contentKinds : List Kind := [.markupText, .markupSpace, .entity]

/-- Turns the markup in the lists of a region, and in those of the template blocks in it, back into
text, at most `levels` deep. -/
def flatten : (levels : Nat) → NodeId → Document → Document
  | 0, _, d => d
  | levels + 1, id, d =>
    (List.range (d.branches id).length).foldl (fun d i =>
      let step := fun (built : Branch × Document) (f : Fragment) =>
        match f with
        | .text _ => (built.1.stack f, built.2)
        | .node child =>
          if built.2.hasKind child contentKinds then
            (built.1.stack (.text (built.2.sourceOf child)), built.2)
          else if (built.2.kind child).isTemplateBlock then
            (built.1.stack f, flatten levels child built.2)
          else (built.1.stack f, built.2)
      let (b, d) := (d.branch id i).foldl step ([], d)
      d.setBranch id i b.reverse) d

/-- The text of a region without tags. -/
def plainText? (d : Document) (id : NodeId) : Option String :=
  match d.branches id with
  | [[.text s]] => some s
  | _ => none

/-- The region is compiled where it is. -/
def compileInside (l : Language) (id : NodeId) : Edit Unit :=
  l.process contentKinds Kind.templateBlocks id

/-- A region is compiled. -/
def compile (l : Language) (id : NodeId) : Work Unit := do
  Work.apply fun d => flatten d.size id d
  let d ← Work.document
  match plainText? d id with
  | none => Work.edit (compileInside l id)
  | some source =>
    match ← Work.task (l.compileCached d.path source) with
    | .ok compiled => Work.apply (·.setChildren id [.text compiled])
    | .error _ => Work.edit (compileInside l id)

end Region

end Stencil
