import Stencil.Json.Reader
import Stencil.Session

/-!
# Projects

If the configuration of a project is missing or not well formed, everything has its default.
-/

namespace Stencil

/-- The configuration of a project. -/
structure Config where
  /-- The schema an editor checks the file against. -/
  schema : Option String := none
  /-- Where the templates are, relative to the project. -/
  templateDir : Option String := none
  options : Options := {}
  deriving DecidableEq, Repr, Inhabited

namespace Config

/-- The name of the configuration file. -/
def fileName : String := "tempera.config.json"

/-- A text that may be missing, as a field. -/
def textField (name : String) (get : Config → Option String)
    (set : Option String → Config → Config) : Json.Field Config where
  name
  get c := ((get c).map Json.ofString).getD .null
  set j c := j.optionalText?.map (set · c)

/-- The options as a field. -/
def optionsField : Json.Field Config where
  name := "options"
  get c := c.options.toJson
  set j c := (Options.ofJson? j).map fun options => { c with options }

/-- All fields. -/
def fields : List (Json.Field Config) :=
  [textField "$schema" schema fun schema c => { c with schema },
   textField "templateDir" templateDir fun templateDir c => { c with templateDir },
   optionsField]

/-- The configuration in a text. -/
def ofText? (text : String) : Option Config := do
  (← Json.ofText? text).record? fields {}

/-- The configuration as an object. Optional parts appear only where they are set. -/
def toJson (c : Config) : Json :=
  .object ((fields.map fun f => (some f.name, f.get c)).filter fun (_, value) =>
    match value with
    | .null => false
    | _ => true)

/-- The configuration of a project. -/
def ofProject (project : Directory) : Config :=
  match project.read fileName with
  | .ok text => (ofText? text).getD {}
  | .error _ => {}

/-- The session of a project. -/
def session (c : Config) (project : Directory) : Session where
  options := c.options
  templates := .below project (c.templateDir.getD "")

end Config

end Stencil
