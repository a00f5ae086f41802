import Stencil.Program.Expr
import Stencil.Shape.Schema

/-!
Scopes: the values that the names of a tag may refer to.
-/

namespace Stencil

structure ShapedExpr where
  expr : Expr
  shape : Shape
  deriving DecidableEq, Repr

/-- What one open construct adds to the names in scope. -/
inductive Layer where
  /-- Names that mean the same everywhere. -/
  | root (bindings : List (String × ShapedExpr))
  /-- A value whose parts are in scope. -/
  | value (found : ShapedExpr)
  /-- A loop, whose element is the next layer inwards. -/
  | iteration (index : String)
  /-- The body of a boolean section. -/
  | guard (found : ShapedExpr)
  | inverted
  deriving DecidableEq, Repr

def Layer.describe : Layer → String
  | root _ => "root"
  | value found => s!"{found.expr.describe} ({found.shape.describe})"
  | iteration index => "loop " ++ index
  | guard found => "if " ++ found.expr.describe
  | inverted => "inverted"

abbrev Scope := List Layer

namespace Scope

def root (shape : Shape) : Scope :=
  let data : ShapedExpr := ⟨.var "data", shape⟩
  [.value data,
    .root [("@root", data), ("@context", ⟨.var "context", .dynamic⟩),
      ("@template", ⟨.var "template", .mapping .text⟩)]]

/-- The value that a dot stands for. -/
def current? (scope : Scope) : Option ShapedExpr :=
  scope.findSome? fun
    | .value found | .guard found => some found
    | _ => none

def fixed? (scope : Scope) (name : String) : Option ShapedExpr :=
  scope.findSome? fun
    | .root bindings => bindings.lookup name
    | _ => none

def describe (scope : Scope) : List String := scope.map Layer.describe

end Scope

end Stencil
