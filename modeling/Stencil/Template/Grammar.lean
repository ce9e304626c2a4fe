import Stencil.Lexing.Grammar

/-!
# The grammar of templates

Template text is split into content, tags, variables and comments. The blanks inside a tag are kept
as text between its elements, so that a tag written back by default is as it was. A brace that
starts no tag is content of its own.
-/

namespace Stencil.Template

open Pattern (all first lit many many1 noneOf one any blank)
open LexAction

/-- The states of the template grammar. -/
inductive LexState where
  | outside
  | comment
  | longComment
  | insideTag
  | insideVariable
  deriving DecidableEq, Repr, Inhabited

namespace LexState

/-- The name of a state. -/
def label : LexState → String
  | outside => "root"
  | comment => "comment"
  | longComment => "multiline-comment"
  | insideTag => "tag"
  | insideVariable => "variable"

end LexState

/-- It may stand in an element without quotes. -/
def isBareChar (c : Char) : Bool :=
  !(c == '\'' || c == '"' || Text.isBlank c || c == '%' || c == '\x7d')

/-- An element of a tag or a part of a variable: bare words and quoted strings, put together. -/
def element : Pattern :=
  many1 (first [
    many1 (one isBareChar),
    all [lit "\"", many (noneOf "\""), lit "\""],
    all [lit "'", many (noneOf "'"), lit "'"]])

/-- A tag of one word. -/
def bareTag (word : String) : Pattern :=
  all [lit "\x7b%", many blank, lit word, many blank, lit "%\x7d"]

/-- The rules of a state. -/
def rules : LexState → List (Rule LexState)
  | .outside =>
    [.on (lit "\x7b#") [start .comment, record, shift, push .comment],
     .on (bareTag "comment") [start .longComment, record, shift, push .longComment],
     .on (lit "\x7b%") [start .tag, shift, push .insideTag],
     .on (lit "\x7b\x7b") [start .variableTag, shift, push .insideVariable],
     .on (many1 (noneOf "\x7b")) [start .content, record, shift, stop],
     Rule.notFollowedBy (.on (lit "\x7b") [start .content, record, shift, stop])
       (.oneOf "%#\x7b"),
     .on any [fail "Error in parser"]]
  | .comment =>
    [.on (lit "#\x7d") [record, shift, stop, pop],
     .on (many1 (noneOf "\n#")) [record, shift],
     .on (lit "\n") [fail "No newlines allowed in single line template comment"],
     .on (lit "#") [record, shift]]
  | .longComment =>
    [.on (bareTag "endcomment") [record, shift, stop, pop],
     .on (lit "\x7b#") [start .comment, record, shift, push .comment],
     .on (many1 (noneOf "\x7b")) [record, shift],
     .on (lit "\x7b") [record, shift]]
  | .insideTag =>
    [.on element [start .tagElement, record, shift, stop],
     .on (lit "%\x7d") [stop, shift, pop],
     .on (many1 blank) [record, shift],
     .on any [fail "Error in parser: template tag"]]
  | .insideVariable =>
    [.on element [start .variablePart, record, shift, stop],
     .on (lit "\x7d\x7d") [stop, shift, pop],
     .on (many1 blank) [record, shift],
     .on any [fail "Error in parser: template variable"]]

/-- The grammar of templates. Every tag has to be closed. -/
def grammar : Grammar LexState where
  initial := .outside
  rules := rules
  label := LexState.label
  mayEnd _ := false

end Stencil.Template
