import Stencil.Compile.Error
import Stencil.Program.Expr

/-!
The output of a compile: a series of calls to whatever takes in the template. A lambda comes with
the outcome of compiling its own template, which a sink may use any number of times.
-/

namespace Stencil

/-- A call other than that for a lambda. -/
inductive Call where
  | literal (text : String)
  | value (expr : Expr) (escaping : Escaping)
  | enterSection (guard : Guard)
  | exitSection
  | enterInverted (guard : Guard)
  | exitInverted
  | enterPartial (name : String)
  | exitPartial
  | enterBlock (name : String)
  | exitBlock
  deriving DecidableEq, Repr

/-- A call, or a lambda with the calls of its own template. -/
inductive Event where
  | call (call : Call)
  | lambda (call : LambdaCall) (body : Except CompileError (List Event))

/-- Something that takes in events. For a lambda it gets a function that feeds the lambda's template
to a sink of the same kind. -/
structure Sink (σ : Type) where
  call : σ → Call → σ
  lambda : σ → LambdaCall → (σ → σ × Option CompileError) → σ × Option CompileError

namespace Sink

variable {σ : Type} (sink : Sink σ)

mutual

def feedEvent (state : σ) : Event → σ × Option CompileError
  | .call call => (sink.call state call, none)
  | .lambda call (.error error) => sink.lambda state call fun inner => (inner, some error)
  | .lambda call (.ok body) => sink.lambda state call fun inner => feed inner body

def feed (state : σ) : List Event → σ × Option CompileError
  | [] => (state, none)
  | event :: rest =>
      match feedEvent state event with
      | (next, none) => feed next rest
      | failed => failed

end

end Sink

end Stencil
