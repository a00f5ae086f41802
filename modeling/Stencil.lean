import Stencil.CommandLine.Run
import Stencil.Main
import Stencil.Proofs.Compile.Bracketing
import Stencil.Proofs.Compile.Buffering
import Stencil.Proofs.Compile.LambdaBlocks
import Stencil.Proofs.Compile.LambdaOpacity
import Stencil.Proofs.Compile.LambdaSections
import Stencil.Proofs.Compile.LambdaText
import Stencil.Proofs.Compile.Nesting
import Stencil.Proofs.Program.Included
import Stencil.Proofs.Program.Indentation
import Stencil.Proofs.Program.Inheritance
import Stencil.Proofs.Render.Closed
import Stencil.Proofs.Render.Complement
import Stencil.Proofs.Render.ContextStack
import Stencil.Proofs.Render.Direct
import Stencil.Proofs.Render.Soundness
import Stencil.Proofs.Token.Lines
import Stencil.Proofs.Token.Places
import Stencil.Proofs.Token.Prefix
import Stencil.Proofs.Token.Written
import Stencil.Proofs.Scope.Precedence
import Stencil.Proofs.Scope.Renaming
import Stencil.Proofs.Render.Renaming
import Stencil.Proofs.Program.Renaming
import Stencil.Proofs.Compile.Renaming
import Stencil.Proofs.Token.Joined
import Stencil.Proofs.Compile.Boundaries
import Stencil.Proofs.Program.Concatenation
import Stencil.Proofs.Program.Verbatim
import Stencil.Proofs.Compile.WellNested
import Stencil.Proofs.Compile.Cycles
import Stencil.Proofs.Token.InGroup
import Stencil.Proofs.Template.Fragment
import Stencil.Proofs.Compile.LambdaCalls
import Stencil.Proofs.Compile.LambdaIndent
import Stencil.Proofs.Program.Accumulation
import Stencil.Proofs.Compile.LineStarts
import Stencil.Proofs.Token.Pending
import Stencil.Proofs.Token.Reclassified
import Stencil.Proofs.Render.Escaping
import Stencil.Proofs.Render.LoopPlaces
import Stencil.Proofs.Compile.NotFound
import Stencil.Proofs.Compile.Unclosed
import Stencil.Proofs.Compile.Directories
import Stencil.Proofs.Scope.FreshFamily
