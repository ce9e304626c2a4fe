import Stencil.Doc.Node

/-!
# Errors and warnings

Why a compilation stops. Each error is a cause with the place it points at; the wording is in
`message` alone.
-/

namespace Stencil

/-- Why a scan of text stops. -/
inductive LexFault where
  | noTransition (state : String)
  | unbalancedClose
  /-- A state is left and only the first one is there. -/
  | leftFirstState
  /-- A rule applied and changed neither the position nor the stacks. -/
  | noProgress (state : String)
  /-- Rules keep changing the stacks and never move on. -/
  | endless (state : String)
  /-- A rule that refuses the text, with its reason. -/
  | refused (reason : String)
  deriving DecidableEq, Repr

/-- Why the scopes of a script cannot be made out. -/
inductive ScopeFault where
  | scriptEnds
  | noParameters
  | badParameter
  | noFunctionBody
  deriving DecidableEq, Repr

/-- A fault of scopes and where it is. -/
structure ScopeError where
  place : Place
  fault : ScopeFault
  deriving DecidableEq, Repr

/-- Why a template makes no sense. -/
inductive TemplateFault where
  | variableParent
  | orphanBlock (name : String)
  | variableDecorator
  | includesItself (name : String)
  /-- So many templates are being read one inside the other that the library allows no more. -/
  | tooDeep (name : String)
  deriving DecidableEq, Repr

/-- Why a file cannot be loaded. -/
inductive LoadFault where
  | notFound
  | unsupported
  | isDirectory
  | notDirectory
  | invalidInput
  | invalidName
  deriving DecidableEq, Repr

/-- Why a compilation stops. -/
inductive Error where
  | lex (place : Place) (fault : LexFault) (near : String)
  | openToken (place : Place) (kind : Kind)
  | openState (place : Place) (state : String)
  | openBlock (place : Place) (kind : Kind)
  | scope (place : Place) (fault : ScopeFault)
  | template (place : Place) (fault : TemplateFault)
  | load (place : Place) (name : String) (fault : LoadFault)
  | unknownOption (place : Place) (option : String)
  deriving DecidableEq, Repr

/-- The wording of the fault. -/
def LexFault.message : LexFault → String
  | noTransition state => "no possible transition in state '" ++ state ++ "'"
  | unbalancedClose => "unbalanced token close"
  | leftFirstState => "pop from the root state"
  | noProgress state => "rule in state '" ++ state ++ "' made no progress"
  | endless state => "rules in state '" ++ state ++ "' never move on"
  | refused reason => reason

/-- The wording of the fault. -/
def ScopeFault.message : ScopeFault → String
  | scriptEnds => "Unexpected end of script in function definition"
  | noParameters => "Expected \"(\" after function keyword"
  | badParameter => "Unexpected token in function parameter list"
  | noFunctionBody => "Expected \"\x7b\" after function definition"

/-- The wording of the fault. -/
def TemplateFault.message : TemplateFault → String
  | variableParent => "Preprocessor does not support variable \x7b% extends %\x7d nodes"
  | orphanBlock name =>
    "Found \x7b% block " ++ name ++ " %\x7d which has not been found in the parent"
  | variableDecorator => "Do not use variable template names in \x7b% decorate %\x7d"
  | includesItself name => "Template '" ++ name ++ "' includes itself"
  | tooDeep name => "Template '" ++ name ++ "' is nested too deep"

/-- The wording of the fault. -/
def LoadFault.message : LoadFault → String
  | notFound => "template not found"
  | unsupported => "loader does not support template loading"
  | isDirectory => "is a directory"
  | notDirectory => "not a directory"
  | invalidInput => "invalid input"
  | invalidName => "invalid file name"

namespace Error

/-- The place an error points at. -/
def place : Error → Place
  | lex p _ _ | openToken p _ | openState p _ | openBlock p _ | scope p _ | template p _
  | load p _ _ | unknownOption p _ => p

/-- The wording of an error, its place apart. -/
def detail : Error → String
  | lex _ fault near => fault.message ++ "; near: '" ++ near ++ "'"
  | openToken _ kind => kind.name ++ " not terminated"
  | openState _ state => "unexpected end of input in state '" ++ state ++ "'"
  | openBlock _ kind => kind.name ++ " tag not terminated"
  | scope _ fault => fault.message
  | template _ fault => fault.message
  | load _ name fault => "template '" ++ name ++ "' could not be loaded: " ++ fault.message
  | unknownOption _ option => "No such template preprocessor option: " ++ option

/-- The wording of an error. -/
def message (e : Error) : String :=
  e.place.describe ++ ": " ++ e.detail

end Error

/-- A remark that does not stop a compilation. -/
structure Warning where
  place : Place
  text : String
  deriving DecidableEq, Repr

/-- The wording of a warning. -/
def Warning.message (w : Warning) : String :=
  w.place.describe ++ ": " ++ w.text

end Stencil
