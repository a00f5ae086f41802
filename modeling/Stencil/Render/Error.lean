import Stencil.Compile.Error
import Stencil.Render.ContextNode

/-!
What can go wrong while a program is rendered, with its wording.
-/

namespace Stencil

inductive RenderError where
  | unknownLambda (name : String)
  | unboundVariable (name : String)
  | notASequence (expr : String)
  | unexpectedModel (name : String)
  | node (error : NodeError)
  deriving DecidableEq, Repr

def RenderError.message : RenderError → String
  | unknownLambda name => s!"no lambda registered as '{name}'"
  | unboundVariable name => s!"variable '{name}' is not bound"
  | notASequence expr => s!"'{expr}' is not a sequence"
  | unexpectedModel name => s!"lambda '{name}' returned a model but has no template to render it"
  | node error => error.message

inductive TemplateError where
  | compile (error : CompileError)
  | render (error : RenderError)
  deriving DecidableEq, Repr

def TemplateError.message : TemplateError → String
  | compile error => error.message
  | render error => error.message

end Stencil
