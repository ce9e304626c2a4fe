import Stencil.Lexing.Grammar
import Stencil.Pattern.Reader

/-!
# Grammars written as tables

A table describes a grammar by text: states by name, patterns in the notation of
`Stencil.Pattern.Reader`.
-/

namespace Stencil

/-- A rule of a table. -/
structure RuleEntry where
  pattern : String
  /-- A pattern that has to follow (`true`) or must not follow (`false`). -/
  guard : Option (Bool × String) := none
  actions : List (LexAction String)

/-- A state of a table. -/
structure StateEntry where
  name : String
  rules : List RuleEntry
  mayEnd : Bool := false

/-- A grammar written as a table. -/
structure GrammarTable where
  name : String
  states : List StateEntry

/-- Why a table describes no grammar. -/
inductive TableError where
  | noInitialState (grammar : String)
  | repeatedState (grammar state : String)
  | unknownState (grammar state target : String)
  | badPattern (grammar state pattern : String)
  deriving DecidableEq, Repr

/-- The wording of the error. -/
def TableError.message : TableError → String
  | noInitialState grammar => "grammar '" ++ grammar ++ "' has no 'root' state"
  | repeatedState grammar state =>
    "grammar '" ++ grammar ++ "' defines state '" ++ state ++ "' twice"
  | unknownState grammar state target =>
    "grammar '" ++ grammar ++ "': state '" ++ state ++ "' pushes unknown state '" ++ target ++ "'"
  | badPattern grammar state pattern =>
    "grammar '" ++ grammar ++ "': state '" ++ state ++ "' has invalid pattern " ++ pattern

namespace GrammarTable

/-- The name of the first state. -/
def initialState : String := "root"

/-- The first name that occurs again. -/
def firstRepeated? : (seen names : List String) → Option String
  | _, [] => none
  | seen, n :: ns => if seen.contains n then some n else firstRepeated? (n :: seen) ns

/-- The pattern of a text, or the fault that there is none. -/
def pattern (t : GrammarTable) (state text : String) : Except TableError Pattern :=
  match Pattern.ofText? text with
  | some p => .ok p
  | none => .error (.badPattern t.name state text)

/-- The rule of an entry. States entered are checked before the guard, the guard before the
pattern. -/
def rule (t : GrammarTable) (state : String) (e : RuleEntry) : Except TableError (Rule String) := do
  for a in e.actions do
    if let .push target := a then
      if !t.states.any (·.name == target) then throw (.unknownState t.name state target)
  let guard ← match e.guard with
    | none => pure none
    | some (true, text) => pure (some (.followedBy (← t.pattern state text)))
    | some (false, text) => pure (some (.notFollowedBy (← t.pattern state text)))
  return { pattern := ← t.pattern state e.pattern, actions := e.actions, guard }

/-- The grammar of a table. -/
def build (t : GrammarTable) : Except TableError (Grammar String) := do
  let names := t.states.map (·.name)
  if let some state := firstRepeated? [] names then throw (.repeatedState t.name state)
  if !names.contains initialState then throw (.noInitialState t.name)
  let rules ← t.states.mapM fun s => return (s.name, ← s.rules.mapM (t.rule s.name))
  return {
    initial := initialState
    rules := fun state => (rules.lookup state).getD []
    label := id
    mayEnd := fun state => (t.states.find? (·.name == state)).any (·.mayEnd) }

end GrammarTable

end Stencil
