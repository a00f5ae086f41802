/-!
The templates being compiled, each included by the one below it.
-/

namespace Stencil

inductive FrameKind where
  | root
  | inclusion
  | parent
  | lambda
  deriving DecidableEq, Repr

def FrameKind.label : FrameKind → String
  | root => "root"
  | inclusion => "partial"
  | parent => "parent"
  | lambda => "lambda"

structure Frame where
  kind : FrameKind
  name : String
  deriving DecidableEq, Repr

def Frame.describe (frame : Frame) : String :=
  match frame.kind with
  | .root => frame.name
  | kind => s!"{kind.label} {frame.name}"

/-- The template being compiled and those that led to it, innermost first. -/
structure TemplateStack where
  top : Frame
  callers : List Frame
  deriving DecidableEq, Repr

namespace TemplateStack

def root (name : String) : TemplateStack := ⟨⟨.root, name⟩, []⟩

def frames (stack : TemplateStack) : List Frame := stack.top :: stack.callers

def enter (stack : TemplateStack) (kind : FrameKind) (name : String) : TemplateStack :=
  ⟨⟨kind, name⟩, stack.frames⟩

def depth (stack : TemplateStack) : Nat := stack.frames.length

/-- Whether a template of this name is being compiled. Frames of lambdas bear the names of the
lambdas and do not count. -/
def contains (stack : TemplateStack) (name : String) : Bool :=
  stack.frames.any fun frame => frame.kind ≠ .lambda && frame.name = name

def describe (stack : TemplateStack) : String :=
  " <- ".intercalate (stack.frames.map Frame.describe)

end TemplateStack

end Stencil
