import Stencil.Lexing.Grammar

/-!
# The grammar of scripts

Scripts are split into brackets, strings, regular expressions, identifiers, keywords, numbers,
operators and blanks; comments vanish. Brackets swallow the blanks around them, and operators keep
theirs as part of their text. A slash divides after a value and starts a regular expression
elsewhere.
-/

namespace Stencil.Script

open Pattern (all first lit many many1 noneOf one oneOf any blank)
open LexAction

/-- The states of the script grammar. -/
inductive LexState where
  | code
  | doubleQuoted
  | singleQuoted
  | longComment
  | lineComment
  | afterValue
  | regex
  deriving DecidableEq, Repr, Inhabited

namespace LexState

/-- The name of a state. -/
def label : LexState → String
  | code => "root"
  | doubleQuoted => "double-quoted-string"
  | singleQuoted => "single-quoted-string"
  | longComment => "multiline-comment"
  | lineComment => "singleline-comment"
  | afterValue => "after-value"
  | regex => "regex"

/-- Whether a script may end in a state: after a value, and in a comment up to the line's end. -/
def mayEnd : LexState → Bool
  | lineComment | afterValue => true
  | _ => false

end LexState

/-- The words that are keywords, in the order they are tried. -/
def keywords : List String :=
  ["break", "case", "catch", "const", "continue", "debugger", "default", "delete", "do", "else",
   "enum", "false", "finally", "for", "function", "if", "instanceof", "in", "let", "new", "null",
   "return", "switch", "this", "throw", "true", "try", "typeof", "var", "void", "while", "with"]

/-- A name may start with it. -/
def isNameStart (c : Char) : Bool := c.isAlpha || c == '_' || c == '$'

/-- It may stand in a name. -/
def isNameChar (c : Char) : Bool := c.isAlphanum || c == '_' || c == '$'

/-- It is a blank within a line. -/
def isPadding (c : Char) : Bool := c == ' ' || c == '\t'

/-- A bracket with the blanks around it. -/
def openBracket (bracket : String) : Pattern := all [many blank, lit bracket, many blank]

/-- A bracket with the blanks in front. -/
def closeBracket (bracket : String) : Pattern := all [many blank, lit bracket]

/-- An operator with the blanks around it. -/
def padded (operator : Pattern) : Pattern :=
  all [many (one isPadding), operator, many (one isPadding)]

/-- A backslash and any character. -/
def escaped : Pattern := all [lit "\\", any]

/-- A class inside a regular expression, where a slash does not end the expression. -/
def regexClass : Pattern :=
  all [lit "[", many (first [escaped, noneOf "]\\\n"]), lit "]"]

/-- The rules of a state. -/
def rules : LexState → List (Rule LexState)
  | .code =>
    [.on (openBracket "\x7b") [start .scope, shift],
     .on (closeBracket "\x7d") [stop, shift],
     .on (lit "/*") [push .longComment, shift],
     .on (lit "//") [push .lineComment, shift],
     .on (lit "\"") [push .doubleQuoted, start .doubleQuoted, shift],
     .on (lit "'") [push .singleQuoted, start .singleQuoted, shift],
     Rule.notFollowedBy (.on (first (keywords.map lit)) [start .keyword, record, shift, stop])
       (one isNameChar),
     .on (padded (oneOf ";,=?:|^&!<>*%~.+-")) [start .operator, record, shift, stop],
     .on (openBracket "(") [start .parentheses, shift],
     .on (closeBracket ")") [stop, shift, push .afterValue],
     .on (openBracket "[") [start .squareBrackets, shift],
     .on (closeBracket "]") [stop, shift, push .afterValue],
     .on (all [one isNameStart, many (one isNameChar)])
       [start .identifier, record, shift, stop, push .afterValue],
     .on (all [one Char.isDigit, many (one fun c => c.isAlphanum || c == '_' || c == '.')])
       [start .number, record, shift, stop, push .afterValue],
     .on (many1 blank) [start .scriptSpace, record, shift, stop],
     Rule.notFollowedBy (.on (closeBracket "/") [start .regex, record, shift, push .regex])
       (oneOf "/*"),
     .on any [fail "Unexpected character in script"]]
  | .doubleQuoted =>
    [.on (lit "\"") [pop, shift, stop],
     .on (lit "\\'") [replace "'", shift],
     .on escaped [record, shift],
     .on (many1 (noneOf "\"\\")) [record, shift]]
  | .singleQuoted =>
    [.on (lit "'") [pop, shift, stop],
     .on (lit "\\\"") [replace "\"", shift],
     .on escaped [record, shift],
     .on (many1 (noneOf "'\\")) [record, shift]]
  | .longComment =>
    [.on (lit "*/") [shift, pop],
     .on (many1 (noneOf "*")) [shift],
     .on (lit "*") [shift]]
  | .lineComment =>
    [.on (lit "\n") [pop, start .scriptSpace, record, shift, stop],
     .on (many1 (noneOf "\n")) [shift]]
  | .afterValue =>
    [Rule.notFollowedBy (.on (padded (lit "/")) [start .operator, record, shift, stop])
       (oneOf "/*"),
     .on (lit "/*") [push .longComment, shift],
     .on (all [lit "//", many (noneOf "\n")]) [shift],
     .on .empty [pop]]
  | .regex =>
    [.on escaped [record, shift],
     .on regexClass [record, shift],
     .on (many1 (noneOf "/\\[\n")) [record, shift],
     .on (all [lit "/", many (one fun c => 'a' ≤ c && c ≤ 'z')])
       [record, shift, stop, pop, push .afterValue],
     .on (lit "\n") [fail "Unterminated regular expression"]]

/-- The grammar of scripts. -/
def grammar : Grammar LexState where
  initial := .code
  rules := rules
  label := LexState.label
  mayEnd := LexState.mayEnd

end Stencil.Script
