import Stencil.Doc.Kind
import Stencil.Pattern.Basic

/-!
# Grammars

A rule applies where its pattern matches and its guard agrees with what follows; the first rule of a
state that applies is taken, and its actions are carried out in order.
-/

namespace Stencil

/-- What a rule does when it applies. -/
inductive LexAction (σ : Type) where
  /-- Enter a state; the current one is returned to later. -/
  | push (state : σ)
  /-- Return to the state before the current one. -/
  | pop
  /-- Add the matched text to the innermost open token. -/
  | record
  /-- Add other text in place of the matched text. -/
  | replace (text : String)
  | shift
  | start (kind : Kind)
  | stop
  | fail (reason : String)
  deriving DecidableEq, Repr

namespace LexAction

/-- How much the stack of states grows. -/
def stateRise {σ : Type} : LexAction σ → Int
  | push _ => 1
  | pop => -1
  | _ => 0

/-- By how much an action raises the stack of open tokens. -/
def tokenRise {σ : Type} : LexAction σ → Int
  | start _ => 1
  | stop => -1
  | _ => 0

end LexAction

/-- A condition on the text behind a match. -/
inductive Guard where
  | followedBy (p : Pattern)
  | notFollowedBy (p : Pattern)

/-- Whether the condition holds of the text behind a match. -/
def Guard.holds : Guard → List Char → Bool
  | followedBy p, rest => p.starts rest
  | notFollowedBy p, rest => !p.starts rest

/-- A rule of a grammar. -/
structure Rule (σ : Type) where
  pattern : Pattern
  actions : List (LexAction σ)
  guard : Option Guard := none

namespace Rule

/-- The rule with a pattern, actions and no condition on what follows. -/
def on {σ : Type} (pattern : Pattern) (actions : List (LexAction σ)) : Rule σ :=
  { pattern, actions }

/-- Whether the guard, if there is one, agrees with the text behind a match. -/
def admits {σ : Type} (r : Rule σ) (rest : List Char) : Bool :=
  match r.guard with
  | none => true
  | some g => g.holds rest

/-- The text a rule matches, and the rest, where it applies. -/
def fire? {σ : Type} (r : Rule σ) (text : List Char) : Option (List Char × List Char) :=
  (r.pattern.split? text).filter fun (_, rest) => r.admits rest

/-- Whether both stacks are as high after the rule as before. -/
def isLevel {σ : Type} (r : Rule σ) : Bool :=
  r.actions.foldr (·.stateRise + ·) 0 == 0 && r.actions.foldr (·.tokenRise + ·) 0 == 0

/-- The rule, only where the pattern matches behind. -/
def followedBy {σ : Type} (r : Rule σ) (p : Pattern) : Rule σ :=
  { r with guard := some (.followedBy p) }

/-- The rule with the condition that `p` does not follow. -/
def notFollowedBy {σ : Type} (r : Rule σ) (p : Pattern) : Rule σ :=
  { r with guard := some (.notFollowedBy p) }

end Rule

/-- A grammar with states of type `σ`. -/
structure Grammar (σ : Type) where
  initial : σ
  /-- The rules of a state, the preferred ones first. -/
  rules : σ → List (Rule σ)
  label : σ → String
  mayEnd : σ → Bool

/-- The first rule of a state that applies, with the text it matches. -/
def Grammar.next? {σ : Type} (g : Grammar σ) (state : σ) (text : List Char) :
    Option (Rule σ × List Char) :=
  (g.rules state).findSome? fun r => (r.fire? text).map fun (matched, _) => (r, matched)

end Stencil
