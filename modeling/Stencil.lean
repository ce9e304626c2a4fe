import Stencil.Lexing.Table
import Stencil.Project.Config
import Stencil.Proofs.Blocks.Bounds
import Stencil.Proofs.Cache.Refinement
import Stencil.Proofs.Cache.Sharing
import Stencil.Proofs.Cache.Stylesheets
import Stencil.Proofs.Doc.DeepCopies
import Stencil.Proofs.Markup.Merging
import Stencil.Proofs.Script.BlockScope
import Stencil.Proofs.Script.Braces
import Stencil.Proofs.Script.LineBreaks
import Stencil.Proofs.Script.Literals
import Stencil.Proofs.Script.Shortlex
import Stencil.Proofs.Stylesheet.Blanks
import Stencil.Proofs.Stylesheet.Escapes
import Stencil.Proofs.Stylesheet.Paths
import Stencil.Proofs.Template.Inheritance
import Stencil.Proofs.Template.RawOutput
import Stencil.Proofs.Template.Rounds
