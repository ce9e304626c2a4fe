import Stencil.Blocks
import Stencil.Lexing.Run
import Stencil.Markup.Grammar
import Stencil.Markup.Tag

/-!
# Elements of markup

Scripts, styles, preformatted text, text areas and conditional comments become nodes with a body; other
tags stay as they are.
-/

namespace Stencil.Markup

/-- The elements that become nodes with a body. -/
inductive Element where
  | script
  | style
  | pre
  | textarea
  deriving DecidableEq, Repr

namespace Element

/-- All of them. -/
def all : List Element := [script, style, pre, textarea]

/-- The name of their tags. -/
def name : Element → String
  | script => "script"
  | style => "style"
  | pre => "pre"
  | textarea => "textarea"

/-- The kind of their node. -/
def kind : Element → Kind
  | script => .script
  | style => .style
  | pre => .pre
  | textarea => .textarea

/-- The element of a name, in any case. -/
def ofName? (n : String) : Option Element :=
  all.find? fun e => Text.sameAsciiCaseless e.name n

end Element

/-- The markers that open and close nodes with a body. -/
inductive Marker where
  | conditional
  | endConditional
  | opens (e : Element)
  | closes (e : Element)
  deriving DecidableEq, Repr

/-- The nodes with a body, by the marker that opens them. -/
def blocks : BlockTable Marker where
  rules := (.conditional, ⟨[], .endConditional, .conditional⟩) ::
    Element.all.map fun e => (.opens e, ⟨[], .closes e, e.kind⟩)

/-- The element that a tag with the given fragments belongs to. -/
def elementOf? (d : Document) (tag : Branch) : Option Element :=
  (tagName? d tag).bind Element.ofName?

/-- What a tag stands for. -/
def marker? (d : Document) (id : NodeId) : Option Marker :=
  match d.kind id with
  | .conditionalStart => some .conditional
  | .conditionalEnd => some .endConditional
  | .markupTag =>
    if isSelfClosing d (d.children id) then none
    else (elementOf? d (d.children id)).map .opens
  | .endTag => (elementOf? d (d.children id)).map .closes
  | _ => none

/-- How markup is nested. -/
def nesting : Nesting Marker where
  table := blocks
  eligible := [.markupTag, .endTag, .conditionalStart, .conditionalEnd]
  classify := marker?

/-- Splits the text of a template as markup. The bodies of template blocks are split on their own;
other template nodes stay where they are in the text. -/
def lex : Edit Unit :=
  grammar.tokenize [.content, .expanded] Kind.templateBlocks Document.root

/-- Makes elements and conditional comments nodes with a body. -/
def nest : Edit Unit :=
  nesting.nest Document.root

end Stencil.Markup
