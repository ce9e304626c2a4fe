import Stencil.Blocks
import Stencil.Doc.Walk
import Stencil.Lexing.Run
import Stencil.Template.Grammar
import Stencil.Template.Tags

/-!
# Reading templates

A template is split into tokens; tags that stand alone get the kind their name asks for; tags that
open and close are nested. Tags of unknown names stay ordinary tags.
-/

namespace Stencil.Template

/-- The tags that stand alone. -/
def inlineTags : List (String × Kind) :=
  [("extends", .extendsTag), ("include", .includeTag), ("load", .loadTag), ("trans", .transTag),
   ("plural", .pluralTag), ("url", .urlTag), ("callmacro", .callMacro), ("!", .config)]

/-- The tags with a body. -/
def blockTags : BlockTable String where
  rules :=
    [("block", ⟨[], "endblock", .block⟩),
     ("blocktrans", ⟨["plural"], "endblocktrans", .blockTrans⟩),
     ("macro", ⟨[], "endmacro", .macroDef⟩),
     ("ifdebug", ⟨[], "endifdebug", .ifDebug⟩),
     ("decorate", ⟨[], "enddecorate", .decorate⟩),
     ("compress", ⟨[], "endcompress", .compress⟩),
     ("!raw", ⟨[], "!endraw", .rawOutput⟩),
     ("if", ⟨["else"], "endif", .ifBlock⟩),
     ("for", ⟨["empty"], "endfor", .forBlock⟩),
     ("ifequal", ⟨["else"], "endifequal", .ifEqual⟩),
     ("ifnotequal", ⟨["else"], "endifnotequal", .ifNotEqual⟩),
     ("with", ⟨[], "endwith", .withBlock⟩),
     ("spaceless", ⟨[], "endspaceless", .spaceless⟩),
     ("filter", ⟨[], "endfilter", .filter⟩),
     ("autoescape", ⟨[], "endautoescape", .autoEscape⟩)]

/-- How template tags nest: by their names. A tag that marks a plural may also stand alone. -/
def nesting : Nesting String where
  table := blockTags
  eligible := [.tag, .pluralTag]
  classify := tagName?

/-- Gives the tags below the root that stand alone the kind their name asks for. -/
def specialize (d : Document) : Document :=
  (d.descendants Document.root [.tag] []).foldl (fun d id =>
    match (tagName? d id).bind (List.lookup · inlineTags) with
    | some kind => d.setKind id kind
    | none => d) d

/-- The text of a document becomes a tree of tags. -/
def parse : Edit Unit := do
  grammar.tokenize [] [] Document.root
  Edit.apply specialize
  nesting.nest Document.root

end Stencil.Template
