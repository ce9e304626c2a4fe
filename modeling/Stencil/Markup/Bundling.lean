import Stencil.Markup.Tag
import Stencil.Script.Language
import Stencil.Stylesheet.Language

/-!
# Bundles

Inside a compress tag the external scripts are joined into one bundle, and so are runs of stylesheet
links for the same media. The first tag of a bundle then points at it and the others go.
-/

namespace Stencil.Markup

/-- The media that can be bundled. -/
inductive MediaType where
  | script
  | stylesheet
  deriving DecidableEq, Repr

namespace MediaType

/-- How the files end. -/
def extension : MediaType → String
  | script => "js"
  | stylesheet => "css"

/-- The language of the files. -/
def language (url : String) : MediaType → Language
  | script => Script.language
  | stylesheet => Stylesheet.language (some url)

end MediaType

/-- A file that a tag refers to. -/
structure MediaFile where
  tag : NodeId
  url : String
  place : Place
  deriving DecidableEq, Repr

/-- The url is of another host. -/
def isRemote (url : String) : Bool :=
  ["http://", "https://", "//"].any (·.isPrefixOf url)

/-- The url is one of a file that is bundled. -/
def isPackable (o : Options) (url : String) : Bool :=
  [o.mediaUrl, o.staticUrl].any (fun start => start ≠ "" && start.isPrefixOf url) || isRemote url

/-- The file at a url that a tag refers to, if it can be bundled. -/
def mediaFile? (o : Options) (d : Document) (tag : NodeId) (url : String) : Option MediaFile :=
  if isPackable o url then some { tag, url, place := d.place tag } else none

/-- The compress tags, none inside another. -/
def compressTags (d : Document) : List NodeId :=
  d.descendants Document.root [.compress] [.compress, .rawOutput]

/-- The compiled content of a file. -/
def compileMedia (type : MediaType) (file : MediaFile) : SessionM String := do
  let source ← SessionM.loadMedia file.url file.place
  (type.language file.url).compileFile file.url source

/-- The bundle of files. -/
def makeBundle (type : MediaType) (files : List MediaFile) : SessionM Bundle := do
  let compiled ← files.mapM (compileMedia type)
  let joined := "\n".intercalate compiled
  let key := Key.ofParts [type.extension, joined]
  let options := (← get).options
  match ← SessionM.cached key fun _ => .ok joined with
  | .error e => throw e
  | .ok content => return {
      url := options.bundleUrl ++ key.hex ++ "." ++ type.extension
      files := files.map (·.url)
      content }

/-- The attribute of the tag becomes the url of the bundle. -/
def pointAt (tag : Branch) (name : String) (b : Bundle) (d : Document) : Document :=
  match attribute? d tag name with
  | some id => (setAttributeValue d id b.url).2
  | none => d

/-! ### Scripts -/

/-- The external scripts below a node that can be bundled. -/
def scriptFiles (o : Options) (d : Document) (id : NodeId) : List MediaFile :=
  (d.descendants id [.script] [.rawOutput]).filterMap fun script =>
    (valueOf? d (openingTag d script) "src").bind (mediaFile? o d script)

/-- The scripts of one tag become one bundle. -/
def bundleScripts (id : NodeId) : Work Unit := do
  match scriptFiles (← Work.options) (← Work.document) id with
  | [] => return
  | first :: others => do
    let bundle ← Work.task (makeBundle .script (first :: others))
    Work.apply fun d =>
      (pointAt (openingTag d first.tag) "src" bundle d).removeNodes id (others.map (·.tag))
    Work.task (modify (·.addBundle bundle))

/-- The scripts of every compress tag. -/
def packScripts : Work Unit := do
  (compressTags (← Work.document)).forM bundleScripts

/-! ### Stylesheets -/

/-- A link to a stylesheet, with no type or that of stylesheets. -/
def isStylesheetLink (d : Document) (tag : Branch) : Bool :=
  (tagName? d tag).any (Text.sameAsciiCaseless · "link") &&
    (valueOf? d tag "rel").any (Text.sameAsciiCaseless · "stylesheet") &&
    (valueOf? d tag "type").all (Text.sameAsciiCaseless · "text/css")

/-- A stylesheet that a link refers to, and the media the link is for. -/
structure StylesheetLink where
  file : MediaFile
  media : Option String
  deriving DecidableEq, Repr

/-- The stylesheet links below a node that can be bundled. -/
def stylesheetLinks (o : Options) (d : Document) (id : NodeId) : List StylesheetLink :=
  ((d.descendants id [.markupTag] [.rawOutput]).filter fun tag =>
      isStylesheetLink d (d.children tag)).filterMap fun tag => do
    let file ← mediaFile? o d tag (← valueOf? d (d.children tag) "href")
    return { file, media := valueOf? d (d.children tag) "media" }

/-- Links in a row for the same media. -/
def mediaRuns (links : List StylesheetLink) : List (List StylesheetLink) :=
  links.splitBy fun a b => a.media == b.media

/-- Bundles a run of links and gives the tags that are no longer needed. -/
def bundleRun (run : List StylesheetLink) : Work (List NodeId) := do
  match run.map (·.file) with
  | [] => return []
  | first :: others => do
    let bundle ← Work.task (makeBundle .stylesheet (first :: others))
    Work.apply fun d => pointAt (d.children first.tag) "href" bundle d
    Work.task (modify (·.addBundle bundle))
    return others.map (·.tag)

/-- The stylesheets of one tag become bundles. -/
def bundleStylesheets (id : NodeId) : Work Unit := do
  let links := stylesheetLinks (← Work.options) (← Work.document) id
  let removed ← (mediaRuns links).mapM bundleRun
  Work.apply (·.removeNodes id removed.flatten)

/-- The stylesheets of every compress tag. -/
def packStylesheets : Work Unit := do
  (compressTags (← Work.document)).forM bundleStylesheets

end Stencil.Markup
