import Stencil.Lexing.Run
import Stencil.Media
import Stencil.Script.Grammar
import Stencil.Script.Renaming

/-!
# Scripts as media

A script is split into tokens, loses the blanks that carry no meaning, and has its private names
shortened.
-/

namespace Stencil.Script

/-- A script is compiled. -/
def process (through enter : List Kind) (id : NodeId) : Edit Unit := do
  grammar.tokenize through enter id
  Edit.apply (compress · id)
  let _ ← minify id

/-- Scripts as a language of media. -/
def language : Language where
  keyParts source := ["script", source]
  process := process

end Stencil.Script
