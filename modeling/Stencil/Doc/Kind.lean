/-!
# Node kinds

The kind of a node says which piece of a template it stands for. Kinds come in five families: the
document itself, template tags, markup, stylesheets and scripts.
-/

namespace Stencil

/-- What a node stands for. -/
inductive Kind where
  | root
  /-- Content put in place of a variable, an include, a decoration or a macro call. -/
  | expanded
  -- Template text
  | content
  | tag
  | tagElement
  | variableTag
  | variablePart
  | comment
  | longComment
  -- Template tags that stand alone
  | extendsTag
  | includeTag
  | loadTag
  | transTag
  | pluralTag
  | urlTag
  | callMacro
  | config
  -- Template tags with a body
  | block
  | blockTrans
  | macroDef
  | ifDebug
  | decorate
  | compress
  | rawOutput
  | ifBlock
  | forBlock
  | ifEqual
  | ifNotEqual
  | withBlock
  | spaceless
  | filter
  | autoEscape
  -- Markup
  | doctype
  | entity
  | cdata
  | markupComment
  | markupTag
  | tagName
  | endTag
  | tagEndSign
  | tagAttribute
  | attributeKey
  | attributeValue
  | tagSpace
  | markupText
  | markupSpace
  | conditionalStart
  | conditionalEnd
  | conditional
  | script
  | style
  | pre
  | textarea
  -- Stylesheets
  | cssOperator
  | cssString
  | cssSpace
  | cssUrl
  -- Scripts
  | scope
  | parentheses
  | squareBrackets
  | identifier
  | keyword
  | scriptSpace
  | operator
  | doubleQuoted
  | singleQuoted
  | regex
  | number
  | requiredSpace
  deriving DecidableEq, Repr, Inhabited

namespace Kind

/-- Every kind with its code and its name, in order of the codes. -/
def table : List (Kind × Nat × String) :=
  [(root, 0, "root"),
   (expanded, 1, "expanded"),
   (content, 10, "content"),
   (tag, 11, "template-tag"),
   (tagElement, 12, "template-tag-element"),
   (variableTag, 13, "template-variable"),
   (variablePart, 14, "template-variable-part"),
   (comment, 15, "template-comment"),
   (longComment, 16, "template-multiline-comment"),
   (extendsTag, 20, "extends"),
   (includeTag, 21, "include"),
   (loadTag, 22, "load"),
   (transTag, 23, "trans"),
   (pluralTag, 24, "plural"),
   (urlTag, 25, "url"),
   (callMacro, 26, "callmacro"),
   (config, 27, "preprocessor-config"),
   (block, 30, "block"),
   (blockTrans, 31, "blocktrans"),
   (macroDef, 32, "macro"),
   (ifDebug, 33, "ifdebug"),
   (decorate, 34, "decorate"),
   (compress, 35, "compress"),
   (rawOutput, 36, "raw-output"),
   (ifBlock, 37, "if"),
   (forBlock, 38, "for"),
   (ifEqual, 39, "ifequal"),
   (ifNotEqual, 40, "ifnotequal"),
   (withBlock, 41, "with"),
   (spaceless, 42, "spaceless"),
   (filter, 43, "filter"),
   (autoEscape, 44, "autoescape"),
   (doctype, 50, "html-doctype"),
   (entity, 51, "html-entity"),
   (cdata, 52, "html-cdata"),
   (markupComment, 53, "html-comment"),
   (markupTag, 54, "html-tag"),
   (tagName, 55, "html-tag-name"),
   (endTag, 56, "html-end-tag"),
   (tagEndSign, 57, "html-tag-end-sign"),
   (tagAttribute, 58, "html-tag-attribute"),
   (attributeKey, 59, "html-tag-attribute-key"),
   (attributeValue, 60, "html-tag-attribute-value"),
   (tagSpace, 61, "html-tag-whitespace"),
   (markupText, 62, "html-content"),
   (markupSpace, 63, "html-whitespace"),
   (conditionalStart, 64, "html-start-conditional-comment"),
   (conditionalEnd, 65, "html-end-conditional-comment"),
   (conditional, 66, "html-conditional-comment"),
   (script, 67, "html-script"),
   (style, 68, "html-style"),
   (pre, 69, "html-pre"),
   (textarea, 70, "html-textarea"),
   (cssOperator, 80, "css-operator"),
   (cssString, 81, "css-string"),
   (cssSpace, 82, "css-whitespace"),
   (cssUrl, 83, "css-url"),
   (scope, 90, "js-scope"),
   (parentheses, 91, "js-parentheses"),
   (squareBrackets, 92, "js-square-brackets"),
   (identifier, 93, "js-varname"),
   (keyword, 94, "js-keyword"),
   (scriptSpace, 95, "js-whitespace"),
   (operator, 96, "js-operator"),
   (doubleQuoted, 97, "js-double-quoted-string"),
   (singleQuoted, 98, "js-single-quoted-string"),
   (regex, 99, "js-regex-object"),
   (number, 100, "js-number"),
   (requiredSpace, 101, "required-whitespace")]

/-- The number of a kind. -/
def code (k : Kind) : Nat :=
  ((table.find? (·.1 == k)).map (·.2.1)).getD 0

/-- The name of a kind. -/
def name (k : Kind) : String :=
  ((table.find? (·.1 == k)).map (·.2.2)).getD ""

/-- The kind of a name. -/
def ofName? (n : String) : Option Kind :=
  (table.find? (·.2.2 == n)).map (·.1)

/-- The kinds of template tags with a body, raw output apart. -/
def templateBlocks : List Kind :=
  [block, blockTrans, macroDef, ifDebug, decorate, compress, ifBlock, forBlock, ifEqual,
   ifNotEqual, withBlock, spaceless, filter, autoEscape]

/-- It is the kind of a template tag with a body. -/
def isTemplateBlock (k : Kind) : Bool :=
  templateBlocks.contains k

/-- It is a kind of blanks in a script. -/
def isScriptSpace : Kind → Bool
  | scriptSpace | requiredSpace => true
  | _ => false

/-- The text written before and after the children of a node, where the kind has one. -/
def delimiters : Kind → Option (String × String)
  | tag | extendsTag | includeTag | loadTag | transTag | pluralTag | urlTag | callMacro
  | config => some ("\x7b%", "%\x7d")
  | variableTag => some ("\x7b\x7b", "\x7d\x7d")
  | markupTag => some ("<", ">")
  | endTag => some ("</", ">")
  | tagEndSign => some ("/", "")
  | markupComment => some ("<!--", "-->")
  | cdata => some ("<![CDATA[", "]]>")
  | cssUrl => some ("url(", ")")
  | scope => some ("\x7b", "\x7d")
  | parentheses => some ("(", ")")
  | squareBrackets => some ("[", "]")
  | doubleQuoted => some ("\"", "\"")
  | singleQuoted => some ("'", "'")
  | _ => none

/-- The text written around the opening marker's children of a node with a body. -/
def openingDelimiters (k : Kind) : String × String :=
  match k with
  | script | style | pre | textarea => ("<", ">")
  | conditional => ("", "")
  | _ => if k.isTemplateBlock || k == rawOutput then ("\x7b%", "%\x7d") else ("", "")

end Kind

end Stencil
