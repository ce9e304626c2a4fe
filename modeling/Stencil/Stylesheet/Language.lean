import Stencil.Lexing.Run
import Stencil.Media
import Stencil.Stylesheet.Compression
import Stencil.Stylesheet.Grammar
import Stencil.Stylesheet.Url

/-!
# Stylesheets as media

A stylesheet is split into tokens, has its urls brought to their normal form, and loses the blanks
that carry no meaning.
-/

namespace Stencil.Stylesheet

/-- Compiles the stylesheet below a node. Relative urls are resolved against `base`. -/
def process (base : Option String) (through enter : List Kind) (id : NodeId) : Edit Unit := do
  grammar.tokenize through enter id
  Edit.apply fun d => compress (normalizeUrls base id d) id

/-- Stylesheets as a language of media. -/
def language (base : Option String) : Language where
  keyParts source := ["stylesheet", base.getD "", source]
  process := process base

end Stencil.Stylesheet
