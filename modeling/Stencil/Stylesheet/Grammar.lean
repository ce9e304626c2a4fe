import Stencil.Lexing.Grammar

/-!
# The grammar of stylesheets

Stylesheets are split into operators, strings, `url()` values and blanks; other text stays text,
and comments vanish. Operators keep the blanks around them as part of their text. A dot or a hash
is no operator, since the blank in front of it matters to a selector.
-/

namespace Stencil.Stylesheet

open Pattern (all first lit many many1 noneOf one oneOf any blank)
open LexAction

/-- The states of the stylesheet grammar. -/
inductive LexState where
  | rules
  | doubleQuoted
  | singleQuoted
  | longComment
  | lineComment
  | url
  | urlDoubleQuoted
  | urlSingleQuoted
  deriving DecidableEq, Repr, Inhabited

namespace LexState

/-- The name of a state. -/
def label : LexState → String
  | rules => "root"
  | doubleQuoted => "double-quoted-string"
  | singleQuoted => "single-quoted-string"
  | longComment => "multiline-comment"
  | lineComment => "singleline-comment"
  | url => "url"
  | urlDoubleQuoted => "url-double-quoted"
  | urlSingleQuoted => "url-single-quoted"

/-- Whether a stylesheet may end in a state: in a comment up to the line's end. -/
def mayEnd : LexState → Bool
  | lineComment => true
  | _ => false

end LexState

/-- It may stand in plain text. -/
def isPlainChar (c : Char) : Bool :=
  !(Text.isBlank c || "\x7b\x7d();:,\"'/".toList.contains c)

/-- A backslash and any character. -/
def escaped : Pattern := all [lit "\\", any]

/-- The rules of a state. -/
def rules : LexState → List (Rule LexState)
  | .rules =>
    [.on (all [many blank, oneOf "\x7b\x7d():;,", many blank])
       [start .cssOperator, record, shift, stop],
     .on (lit "\"") [push .doubleQuoted, start .cssString, record, shift],
     .on (lit "'") [push .singleQuoted, start .cssString, record, shift],
     .on (lit "/*") [push .longComment, shift],
     .on (lit "//") [push .lineComment, shift],
     .on (first [lit "<!--", lit "-->"]) [shift],
     .on (lit "url(") [shift, start .cssUrl, push .url],
     .on (many1 (one isPlainChar)) [record, shift],
     Rule.notFollowedBy (.on (lit "/") [record, shift]) (oneOf "/*"),
     .on (many1 blank) [start .cssSpace, record, shift, stop],
     .on any [fail "Parse error in stylesheet"]]
  | .doubleQuoted =>
    [.on (lit "\"") [record, pop, shift, stop],
     .on escaped [record, shift],
     .on (many1 (noneOf "\"\\")) [record, shift]]
  | .singleQuoted =>
    [.on (lit "'") [record, pop, shift, stop],
     .on escaped [record, shift],
     .on (many1 (noneOf "'\\")) [record, shift]]
  | .longComment =>
    [.on (lit "*/") [shift, pop],
     .on (many1 (noneOf "*")) [shift],
     .on (lit "*") [shift]]
  | .lineComment =>
    [.on (lit "\n") [shift, pop],
     .on (many1 (noneOf "\n")) [shift]]
  | .url =>
    [.on (lit "\"") [push .urlDoubleQuoted, shift],
     .on (lit "'") [push .urlSingleQuoted, shift],
     .on (many1 (noneOf "'\")")) [record, shift],
     .on (lit ")") [shift, pop, stop]]
  | .urlDoubleQuoted =>
    [.on (lit "\"") [shift, pop],
     .on escaped [record, shift],
     .on (many1 (noneOf "\"\\")) [record, shift]]
  | .urlSingleQuoted =>
    [.on (lit "'") [shift, pop],
     .on escaped [record, shift],
     .on (many1 (noneOf "'\\")) [record, shift]]

/-- The grammar of stylesheets. -/
def grammar : Grammar LexState where
  initial := .rules
  rules := rules
  label := LexState.label
  mayEnd := LexState.mayEnd

end Stencil.Stylesheet
