import Stencil.Markup.Bundling
import Stencil.Markup.Elements

/-!
# Processing markup

The passes over the markup of a template, in order: empty class attributes go, comments go, elements of
one sort are merged, external media are bundled, inline scripts and styles are compiled, and blanks are
shortened.
-/

namespace Stencil.Markup

/-! ### Empty class attributes -/

/-- A class attribute without a value or with an empty one. -/
def isEmptyClass (d : Document) (id : NodeId) : Bool :=
  d.kind id == .tagAttribute && Text.sameAsciiCaseless (attributeName d id) "class" &&
    (attributeValue? d id).all (["", "\"\"", "''"].contains ·)

/-- It is a blank of a tag. -/
def isTagSpace (d : Document) (f : Fragment) : Bool :=
  f.node?.any (d.kind · == .tagSpace)

/-- The fragments of a tag without empty class attributes and the blank in front of each. -/
def dropEmptyClasses (d : Document) (tag : Branch) : Branch :=
  tag.foldl (fun kept f =>
    if f.node?.any (isEmptyClass d) then
      if endsIn d kept .tagSpace then kept.dropLast else kept
    else kept ++ [f]) []

/-- The blanks at the end go. -/
def dropEndSpace (d : Document) (b : Branch) : Branch :=
  (b.reverse.dropWhile (isTagSpace d)).reverse

/-- The fragments of a tag without the blanks at its end, a slash at its end apart. -/
def trimTag (d : Document) (tag : Branch) : Branch :=
  if isSelfClosing d tag then dropEndSpace d tag.dropLast ++ tag.getLast?.toList
  else dropEndSpace d tag

/-- Removes empty class attributes from every tag, and the blanks at the end of every tag. -/
def removeEmptyClasses (d : Document) : Document :=
  (d.descendants Document.root [.markupTag] [.rawOutput]).foldl
    (fun d tag => d.setBranch tag 0 (trimTag d (dropEmptyClasses d (d.branch tag 0)))) d

/-! ### Comments -/

/-- Makes the comments and character data in scripts and styles part of their text. -/
def commentsToText (d : Document) : Document :=
  (d.descendants Document.root [.script, .style] []).foldl (fun d region =>
    (d.descendants region [.markupComment, .cdata] []).foldl (fun d id =>
      (d.setKind id .markupText).setChildren id [.text (d.sourceOf id)]) d) d

/-! ### Merging -/

/-- The element refers to a file. -/
def isExternal (d : Document) (element : NodeId) : Bool :=
  (valueOf? d (openingTag d element) "src").isSome

/-- The content of one node goes to the end of another one. -/
def moveContent (target source : NodeId) (d : Document) : Document :=
  (d.branch source 0).foldl (fun d f => d.append target 0 f) (d.setBranch source 0 [])

/-- Moves the content of all elements of a kind into the first of them and removes the others.
External elements stay, and so do those in conditional comments. -/
def mergeInternal (kind : Kind) (d : Document) : Document :=
  let found := (d.descendants Document.root [kind] [.conditional, .rawOutput]).filter
    (!isExternal d ·)
  match found with
  | [] => d
  | first :: others =>
    (others.foldl (fun d other => moveContent first other d) d).removeNodes Document.root others

/-! ### Inline media -/

/-- The type of the element, if it has one, is that of a script. -/
def isScriptType (d : Document) (script : NodeId) : Bool :=
  (valueOf? d (openingTag d script) "type").all fun type =>
    let type := (Text.asciiLower type).toList
    Text.hasInfix "javascript".toList type || Text.hasInfix "ecmascript".toList type

/-- Inline scripts are compiled. -/
def compileScripts : Work Unit := do
  ((← Work.document).descendants Document.root [.script] [.rawOutput]).forM fun script => do
    let d ← Work.document
    Work.onlyIf (!isExternal d script && isScriptType d script)
      (Region.compile Script.language script)

/-- Inline styles are compiled. -/
def compileStyles : Work Unit := do
  ((← Work.document).descendants Document.root [.style] [.rawOutput]).forM
    (Region.compile (Stylesheet.language none))

/-! ### Blanks -/

/-- Where blanks matter. -/
def blankSensitive : List Kind := [.script, .style, .pre, .textarea, .rawOutput]

/-- Blanks become one space where they do not matter. -/
def compressBlanks (d : Document) : Document :=
  (d.descendants Document.root [.markupSpace, .tagSpace] blankSensitive).foldl
    (fun d id => d.setChildren id [.text " "]) d

/-! ### All together -/

/-- Carries out the passes over the markup of a template. -/
def process : Work Unit := do
  let o ← Work.options
  Work.edit lex
  Work.onlyIf o.removeEmptyClassAttributes (Work.apply removeEmptyClasses)
  Work.edit nest
  Work.apply commentsToText
  Work.apply (·.removeKind Document.root .markupComment)
  Work.onlyIf o.mergeInternalJavascript (Work.apply (mergeInternal .script))
  Work.onlyIf o.mergeInternalCss (Work.apply (mergeInternal .style))
  Work.onlyIf o.packExternalJavascript packScripts
  Work.onlyIf o.packExternalCss packStylesheets
  Work.onlyIf o.compileJavascript compileScripts
  Work.onlyIf o.compileCss compileStyles
  Work.onlyIf o.whitespaceCompression (Work.apply compressBlanks)

end Stencil.Markup
