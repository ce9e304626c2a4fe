import Stencil.Doc.Editing
import Stencil.Session

/-!
# Work on a document in a session

Passes over a template change its document and use the session. As with tasks and edits, what has
been done before an error stays done.
-/

namespace Stencil

/-- A document and the session it is compiled in. -/
structure Job where
  session : Session := {}
  document : Document
  deriving Inhabited

/-- Work on a document in a session that gives an `α` or stops with an error. -/
abbrev Work := EStateM Error Job

namespace Work

variable {α : Type}

/-- An edit of the document. -/
def edit (e : Edit α) : Work α := fun j =>
  match e j.document with
  | .ok a document => .ok a { j with document }
  | .error e document => .error e { j with document }

/-- A task in the session. -/
def task (t : SessionM α) : Work α := fun j =>
  match t j.session with
  | .ok a session => .ok a { j with session }
  | .error e session => .error e { j with session }

/-- A change of the document that does not fail. -/
def apply (f : Document → Document) : Work Unit :=
  modify fun j => { j with document := f j.document }

/-- A change of the document that cannot fail and gives a value. -/
def perform (f : Document → α × Document) : Work α :=
  modifyGet fun j => let (a, document) := f j.document; (a, { j with document })

/-- The document as it is now. -/
def document : Work Document :=
  return (← get).document

/-- The options as they are now. -/
def options : Work Options :=
  return (← get).session.options

/-- The work, where the switch is on. -/
def onlyIf (switch : Bool) (w : Work Unit) : Work Unit :=
  if switch then w else return

end Work

end Stencil
