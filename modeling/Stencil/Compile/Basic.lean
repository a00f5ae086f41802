import Stencil.Compile.Step
import Stencil.Program.Basic
import Stencil.Template.Replacement

/-!
Compiling templates. A template is read as tokens, a parent's blocks are replaced by those of its
caller, standalone lines are classified, and the groups of tokens become events in turn.
-/

namespace Stencil

namespace Compile

def groups (body : Body) : Except CompileError (List LineGroup) :=
  match tokenize body.stack.top.name body.source with
  | .error error => .error (.token body.stack.top.name error)
  | .ok tokens =>
      .ok (LineClassifier.groupsOf ((BlockReplacement.start body.blocks).replaceAll tokens))

/-- Compiles one body, given how to compile those nested in it. -/
def compileWith (setting : Setting) (nested? : Option Nested) : Nested := fun body => do
  let groups ← groups body
  let (events, s) ← runAll (readGroup setting nested? body) (State.start body) groups
  checkClosed body s
  return (events, s.atLineStart)

/-- Compiles a body in which templates may be nested to a given depth. -/
def compileBody (setting : Setting) : Nat → Nested
  | 0 => compileWith setting none
  | room + 1 => compileWith setting (some (compileBody setting room))

end Compile

/-- The events of a template. Those of a failed compile are not to be had. -/
def compile (schema : Schema) (library : Library) (options : Options) (template : Template) :
    Except CompileError (List Event) :=
  (Compile.compileBody ⟨schema, library, options⟩ options.maxIncludeDepth
    (.root schema template)).map Prod.fst

def Program.compile (schema : Schema) (library : Library) (options : Options)
    (template : Template) : Except CompileError Program := do
  Program.ofEvents template.name (← Stencil.compile schema library options template)

end Stencil
