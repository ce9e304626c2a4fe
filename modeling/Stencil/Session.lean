import Stencil.Cache
import Stencil.Library
import Stencil.Options

/-!
# Sessions

What compilations share and what they leave behind. A task works on a session.
-/

namespace Stencil

/-- Media files compiled and joined into one. -/
structure Bundle where
  url : String
  files : List String
  content : String
  deriving DecidableEq, Repr, Inhabited

/-- The state that compilations share. -/
structure Session where
  options : Options := {}
  templates : Library := .absent
  media : Library := .absent
  cache : Cache := {}
  bundles : List Bundle := []
  warnings : List Warning := []
  /-- The templates asked for, each once, in the order they were first asked for. -/
  dependencies : List String := []
  /-- The templates that are being read, the outermost first. -/
  loading : List String := []
  deriving Inhabited

/-- Work on a session that gives an `α` or stops with an error. -/
abbrev SessionM := EStateM Error Session

namespace Session

/-- A template has been asked for. -/
def depend (s : Session) (name : String) : Session :=
  if s.dependencies.contains name then s
  else { s with dependencies := s.dependencies ++ [name] }

/-- One more warning. -/
def warn (s : Session) (place : Place) (text : String) : Session :=
  { s with warnings := s.warnings ++ [{ place, text }] }

/-- One more bundle. -/
def addBundle (s : Session) (b : Bundle) : Session :=
  { s with bundles := s.bundles ++ [b] }

/-- A template is being read. -/
def enter (s : Session) (name : String) : Session :=
  { s with loading := s.loading ++ [name] }

/-- The session when the innermost template has been read. -/
def leave (s : Session) : Session :=
  { s with loading := s.loading.dropLast }

end Session

namespace SessionM

/-- Puts the place and the name to the outcome of loading. -/
def loaded (name : String) (place : Place) : Except LoadFault String → SessionM String
  | .ok content => return content
  | .error fault => throw (.load place name fault)

/-- The text of a template. -/
def load (name : String) (place : Place) : SessionM String := do
  modify (·.depend name)
  loaded name place ((← get).templates.load name)

/-- The content of a media file that is named at `place`. -/
def loadMedia (url : String) (place : Place) : SessionM String := do
  loaded url place ((← get).media.load url)

/-- Carries out a task while a template is being read. A template may not be read inside itself. -/
def reading {α : Type} (name : String) (place : Place) (t : SessionM α) : SessionM α := fun s =>
  if s.loading.contains name then .error (.template place (.includesItself name)) s
  else
    match t (s.enter name) with
    | .ok a s => .ok a s.leave
    | .error e s => .error e s.leave

/-- The content for a key: the one in the cache or else the one computed now. -/
def cached (key : Key) (compute : Unit → Except Error String) : SessionM (Except Error String) :=
  modifyGet fun s =>
    let (result, cache) := s.cache.fetch key compute
    (result, { s with cache })

end SessionM

end Stencil
