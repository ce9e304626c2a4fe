import Stencil.Lexing.Grammar

/-!
# The grammar of markup

Markup is split into tags, entities, comments, text and blanks. A tag is split into its name,
attributes and blanks. The bodies of script and style elements are plain text up to their end tag.
-/

namespace Stencil.Markup

open Pattern (all first lit caseless many many1 noneOf one oneOf any blank wordChar optional)
open LexAction

/-- The states of the markup grammar. -/
inductive LexState where
  | text
  | conditional
  | comment
  | cdata
  | doctype
  | tag
  | endTag
  | insideTag
  | scriptTag
  | styleTag
  | scriptBody
  | styleBody
  | attributeValue
  | singleQuotedValue
  | doubleQuotedValue
  deriving DecidableEq, Repr, Inhabited

namespace LexState

/-- The name of a state. -/
def label : LexState → String
  | text => "root"
  | conditional => "conditional-comment"
  | comment => "comment"
  | cdata => "cdata"
  | doctype => "doctype"
  | tag => "tag"
  | endTag => "end-tag"
  | insideTag => "inside-tag"
  | scriptTag => "script-tag"
  | styleTag => "style-tag"
  | scriptBody => "script-body"
  | styleBody => "style-body"
  | attributeValue => "attribute-value"
  | singleQuotedValue => "single-quoted-value"
  | doubleQuotedValue => "double-quoted-value"

end LexState

/-- An entity such as `&amp;`. -/
def entity : Pattern :=
  all [lit "&", many1 (one fun c => c.isAlphanum || c == '#'), lit ";"]

/-- A character of the name of an attribute. -/
def isAttributeChar (c : Char) : Bool :=
  Text.isWordChar c || c == ':' || c == '.' || c == '@' || c == '-'

/-- A character of the name of a tag. -/
def isTagNameChar (c : Char) : Bool := !(Text.isBlank c || c == '/' || c == '>')

/-- A character of an attribute value without quotes, the slash apart. -/
def isBareValueChar (c : Char) : Bool := isTagNameChar c && c != '\'' && c != '"'

/-- The hyphens that may stand on both ends of a conditional comment. -/
def hyphens : Pattern := optional (lit "--")

/-- The rules inside a tag, with what is done at its end. -/
def insideTag (close : List (LexAction LexState)) : List (Rule LexState) :=
  [.on (all [many1 (one isAttributeChar), lit "="])
     [start .tagAttribute, start .attributeKey, record, shift, stop, start .attributeValue,
      push .attributeValue],
   .on (many1 (one isAttributeChar))
     [start .tagAttribute, start .attributeKey, record, shift, stop, stop],
   .on (lit "/>") [start .tagEndSign, stop, shift, pop, stop],
   .on (lit ">") close,
   .on (many1 blank) [start .tagSpace, record, shift, stop],
   .on any [fail "Parse error in HTML tag"]]

/-- The rules inside a quoted value. -/
def quotedValue (quote : String) : List (Rule LexState) :=
  [.on (lit quote) [record, shift, pop, pop, stop, stop],
   .on entity [start .entity, record, shift, stop],
   .on (many1 (noneOf (quote ++ "&"))) [record, shift],
   .on (lit "&") [record, shift]]

/-- The rules of the body of an element whose content is plain text. -/
def rawBody (name : String) : List (Rule LexState) :=
  [Rule.followedBy (.on (lit "</") [pop, start .endTag, shift, push .endTag])
     (all [caseless name, one fun c => Text.isBlank c || c == '>']),
   .on (many1 (noneOf "<")) [record, shift],
   .on (lit "<") [record, shift]]

/-- The rule for the name of a tag, after which the given state is entered. -/
def nameRule (p : Pattern) (next : LexState) : Rule LexState :=
  .on p [start .tagName, record, shift, stop, pop, push next]

/-- The rules of a state. -/
def rules : LexState → List (Rule LexState)
  | .text =>
    [.on (all [lit "<!", hyphens, lit "[if"])
       [start .conditionalStart, record, shift, push .conditional],
     .on (all [lit "<!", hyphens, lit "[endif]", hyphens, lit ">"])
       [start .conditionalEnd, record, shift, stop],
     .on (lit "<![CDATA[") [start .cdata, shift, push .cdata],
     .on (caseless "<!DOCTYPE") [start .doctype, record, shift, push .doctype],
     .on (lit "<!--") [start .markupComment, shift, push .comment],
     Rule.followedBy (.on (lit "</") [start .endTag, shift, push .endTag]) wordChar,
     Rule.followedBy (.on (lit "<") [start .markupTag, shift, push .tag]) wordChar,
     .on entity [start .entity, record, shift, stop],
     .on (first [many1 (one fun c => !(c == '<' || Text.isBlank c || c == '&')), lit "&"])
       [start .markupText, record, shift, stop],
     .on (many1 blank) [start .markupSpace, record, shift, stop],
     .on any [fail "Parse error in HTML document"]]
  | .conditional =>
    [.on (many1 (one fun c =>
         Text.isBlank c || Text.isWordChar c || "()!|&".toList.contains c)) [record, shift],
     .on (all [lit "]", hyphens, lit ">"]) [record, shift, pop, stop],
     .on any [fail "Parse error in conditional comment"]]
  | .comment =>
    [.on (lit "-->") [shift, pop, stop],
     .on (many1 (noneOf "-")) [record, shift],
     .on (lit "-") [record, shift]]
  | .cdata =>
    [.on (lit "]]>") [shift, pop, stop],
     .on (many1 (noneOf "]")) [record, shift],
     .on (lit "]") [record, shift]]
  | .doctype =>
    [.on (lit ">") [record, stop, shift, pop],
     .on (many1 (noneOf ">")) [record, shift]]
  | .tag =>
    [Rule.notFollowedBy (nameRule (caseless "script") .scriptTag) (one isTagNameChar),
     Rule.notFollowedBy (nameRule (caseless "style") .styleTag) (one isTagNameChar),
     nameRule (many1 (one isTagNameChar)) .insideTag,
     .on any [fail "Parse error in HTML tag"]]
  | .endTag =>
    [nameRule (many1 (one isTagNameChar)) .insideTag,
     .on any [fail "Parse error in HTML tag"]]
  | .insideTag => insideTag [shift, pop, stop]
  | .scriptTag => insideTag [shift, pop, stop, push .scriptBody]
  | .styleTag => insideTag [shift, pop, stop, push .styleBody]
  | .scriptBody => rawBody "script"
  | .styleBody => rawBody "style"
  | .attributeValue =>
    [.on (lit "'") [record, shift, push .singleQuotedValue],
     .on (lit "\"") [record, shift, push .doubleQuotedValue],
     .on (many1 (first [one isBareValueChar,
         all [lit "/", one fun c => !(Text.isBlank c || c == '>')]])) [record, shift],
     .on .empty [pop, stop, stop]]
  | .singleQuotedValue => quotedValue "'"
  | .doubleQuotedValue => quotedValue "\""

/-- The grammar of markup. Every tag, comment and element body has to be closed. -/
def grammar : Grammar LexState where
  initial := .text
  rules := rules
  label := LexState.label
  mayEnd _ := false

end Stencil.Markup
