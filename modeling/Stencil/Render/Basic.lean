import Stencil.Program.Basic
import Stencil.Render.Escape
import Stencil.Render.Value

/-!
Rendering: running a program against data.
-/

namespace Stencil

inductive LambdaAnswer where
  | raw (text : String)
  | model (value : Json)

/-- A lambda gets the text of its section and the value around it. -/
abbrev Lambda := String → Json → LambdaAnswer

/-- What a program is rendered with besides data. -/
structure Renderer where
  escaper : Escaper
  lambdas : Table Lambda

namespace Renderer

def plain : Renderer := ⟨Escaper.plain, []⟩

def write (renderer : Renderer) (text : String) : Escaping → String
  | .escaped => renderer.escaper text
  | .raw => text

/-- Puts the indentation of a line in front of what is written on it. -/
def indented (indent output : String) : String :=
  if output.isEmpty then output else indent ++ output

def lambdaOutput (renderer : Renderer) (bindings : Bindings) (call : LambdaCall)
    (template? : Option (Bindings → Except RenderError String)) : Except RenderError String := do
  let some lambda := renderer.lambdas.get? call.name | throw (.unknownLambda call.name)
  let current ← bindings.eval call.current
  let output ← match lambda call.body current.toJson, call.kind, template? with
    | .raw text, _, _ => pure (renderer.write text call.escaping)
    | .model value, .model name, some template => template ((name, .json value) :: bindings)
    | .model _, _, _ => throw (.unexpectedModel call.name)
  return indented call.indent output

mutual

/-- The text of one instruction. -/
def run (renderer : Renderer) (bindings : Bindings) : Instruction → Except RenderError String
  | .literal text => .ok text
  | .value expr escaping => do
      return renderer.write (← bindings.eval expr).text escaping
  | .conditional guard body => do
      let texts ← (← bindings.passes guard).mapM fun inner => runAll renderer inner body
      return String.join texts
  | .inverted guard body => do
      if (← bindings.passes guard).isEmpty then runAll renderer bindings body
      else return ""
  | .inclusion _ body | .block _ body => runAll renderer bindings body
  | .lambda call none => renderer.lambdaOutput bindings call none
  | .lambda call (some body) =>
      renderer.lambdaOutput bindings call (some fun inner => runAll renderer inner body)

def runAll (renderer : Renderer) (bindings : Bindings) :
    List Instruction → Except RenderError String
  | [] => .ok ""
  | instruction :: rest => do
      let text ← run renderer bindings instruction
      return text ++ (← runAll renderer bindings rest)

end

def render (renderer : Renderer) (program : Program) (data : Json) (context : ContextNode) :
    Except RenderError String :=
  renderer.runAll (.root program.name data context) program.instructions

end Renderer

end Stencil
