import Stencil.Json.Basic

/-!
# Options

Options are read from a configuration; a template can change some of them for itself by name.
-/

namespace Stencil

/-- The options of a compilation. -/
structure Options where
  whitespaceCompression : Bool := true
  preprocessVariables : Bool := true
  /-- Write the content of blocks without their tags. -/
  removeBlockTags : Bool := true
  mergeAllLoadTags : Bool := true
  /-- Expand macro calls and drop the definitions. -/
  preprocessMacros : Bool := true
  preprocessIfdebug : Bool := true
  debug : Bool := false
  isHtml : Bool := true
  compileCss : Bool := true
  compileJavascript : Bool := true
  mergeInternalCss : Bool := false
  mergeInternalJavascript : Bool := false
  removeEmptyClassAttributes : Bool := false
  /-- A block that the parent template lacks is an error and not a warning. -/
  disallowOrphanBlocks : Bool := false
  packExternalJavascript : Bool := false
  packExternalCss : Bool := false
  /-- The start of urls of media that can be bundled. -/
  mediaUrl : String := "/media/"
  /-- The start of urls of static files that can be bundled. -/
  staticUrl : String := "/static/"
  bundleUrl : String := "/media/cache/"
  /-- The known variables and their values, each name once. -/
  knownVariables : List (String × String) := []
  deriving DecidableEq, Repr, Inhabited

namespace Options

/-- A switch: how it is read off the options and how it is set. -/
structure Switch where
  get : Options → Bool
  set : Bool → Options → Options

/-- The switch as a field of a configuration. -/
def Switch.field (name : String) (s : Switch) : Json.Field Options where
  name
  get o := .bool (s.get o)
  set j o := j.bool?.map (s.set · o)

/-- A text as a field of a configuration. -/
def textField (name : String) (get : Options → String) (set : String → Options → Options) :
    Json.Field Options where
  name
  get o := .ofString (get o)
  set j o := j.text?.map (set · o)

/-- A list of pairs with a value for a name, in place of an earlier one. -/
def assign (pairs : List (String × String)) (name value : String) : List (String × String) :=
  pairs.filter (·.1 ≠ name) ++ [(name, value)]

/-- The variables as a part of the configuration. Of several values for one name the last
counts. -/
def variablesField : Json.Field Options where
  name := "variables"
  get o := .object (o.knownVariables.map fun (name, value) => (some name, .ofString value))
  set j o := do
    let pairs ← (← j.fields?).mapM fun (name, value) => value.text?.map (name, ·)
    return { o with
      knownVariables := pairs.foldl (fun vs (name, value) => assign vs name value) [] }

/-- Blanks are shortened. -/
def whitespaceSwitch : Switch :=
  ⟨whitespaceCompression, fun b o => { o with whitespaceCompression := b }⟩

/-- The template is markup. -/
def markupSwitch : Switch := ⟨isHtml, fun b o => { o with isHtml := b }⟩

/-- Macros are expanded. -/
def macroSwitch : Switch := ⟨preprocessMacros, fun b o => { o with preprocessMacros := b }⟩

/-- Inline styles are compiled. -/
def cssSwitch : Switch := ⟨compileCss, fun b o => { o with compileCss := b }⟩

/-- Inline scripts are compiled. -/
def scriptSwitch : Switch := ⟨compileJavascript, fun b o => { o with compileJavascript := b }⟩

/-- Inline styles are merged. -/
def mergeCssSwitch : Switch := ⟨mergeInternalCss, fun b o => { o with mergeInternalCss := b }⟩

/-- Inline scripts are merged. -/
def mergeScriptSwitch : Switch :=
  ⟨mergeInternalJavascript, fun b o => { o with mergeInternalJavascript := b }⟩

/-- Empty class attributes go. -/
def emptyClassSwitch : Switch :=
  ⟨removeEmptyClassAttributes, fun b o => { o with removeEmptyClassAttributes := b }⟩

/-- Refuse blocks that the extended template does not have. -/
def orphanSwitch : Switch := ⟨disallowOrphanBlocks, fun b o => { o with disallowOrphanBlocks := b }⟩

/-- Scripts are bundled. -/
def packScriptSwitch : Switch :=
  ⟨packExternalJavascript, fun b o => { o with packExternalJavascript := b }⟩

/-- Stylesheets are bundled. -/
def packCssSwitch : Switch := ⟨packExternalCss, fun b o => { o with packExternalCss := b }⟩

/-- The parts of the options as a configuration names them, in order. -/
def fields : List (Json.Field Options) :=
  [whitespaceSwitch.field "whitespaceCompression",
   Switch.field "preprocessVariables"
     ⟨preprocessVariables, fun b o => { o with preprocessVariables := b }⟩,
   Switch.field "removeBlockTags" ⟨removeBlockTags, fun b o => { o with removeBlockTags := b }⟩,
   Switch.field "mergeAllLoadTags" ⟨mergeAllLoadTags, fun b o => { o with mergeAllLoadTags := b }⟩,
   macroSwitch.field "preprocessMacros",
   Switch.field "preprocessIfdebug"
     ⟨preprocessIfdebug, fun b o => { o with preprocessIfdebug := b }⟩,
   Switch.field "debug" ⟨debug, fun b o => { o with debug := b }⟩,
   markupSwitch.field "isHtml",
   cssSwitch.field "compileCss",
   scriptSwitch.field "compileJavascript",
   mergeCssSwitch.field "mergeInternalCss",
   mergeScriptSwitch.field "mergeInternalJavascript",
   emptyClassSwitch.field "removeEmptyClassAttributes",
   orphanSwitch.field "disallowOrphanBlocks",
   packScriptSwitch.field "packExternalJavascript",
   packCssSwitch.field "packExternalCss",
   textField "mediaUrl" mediaUrl fun s o => { o with mediaUrl := s },
   textField "staticUrl" staticUrl fun s o => { o with staticUrl := s },
   textField "bundleUrl" bundleUrl fun s o => { o with bundleUrl := s },
   variablesField]

/-- Reads options; parts that are not given have their defaults. -/
def ofJson? (j : Json) : Option Options := j.record? fields {}

/-- The options as a configuration. -/
def toJson (o : Options) : Json :=
  .object (fields.map fun f => (some f.name, f.get o))

/-- The changes a template can ask for by name: a switch and what it is set to. -/
def changes : List (String × Switch × Bool) :=
  [("whitespace-compression", whitespaceSwitch, true),
   ("no-whitespace-compression", whitespaceSwitch, false),
   ("merge-internal-javascript", mergeScriptSwitch, true),
   ("merge-internal-css", mergeCssSwitch, true),
   ("html", markupSwitch, true),
   ("no-html", markupSwitch, false),
   ("no-macro-preprocessing", macroSwitch, false),
   ("html-remove-empty-class-attributes", emptyClassSwitch, true),
   ("compile-css", cssSwitch, true),
   ("no-compile-css", cssSwitch, false),
   ("compile-javascript", scriptSwitch, true),
   ("no-compile-javascript", scriptSwitch, false),
   ("disallow-orphan-blocks", orphanSwitch, true),
   ("no-disallow-orphan-blocks", orphanSwitch, false),
   ("pack-external-javascript", packScriptSwitch, true),
   ("pack-external-css", packCssSwitch, true)]

/-- The options after a named change, if there is a change of that name. -/
def change? (o : Options) (name : String) : Option Options :=
  (changes.lookup name).map fun (switch, value) => switch.set value o

end Options

end Stencil
