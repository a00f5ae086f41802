import Stencil.Text.Quoted

/-!
The instructions' vocabulary: where a value is found when a template is rendered, when a section is
entered, and how a lambda is called.
-/

namespace Stencil

inductive Expr where
  /-- A root variable or one that a guard or a lambda introduces. -/
  | var (name : String)
  | field (base : Expr) (name : String)
  /-- An entry of a mapping, which may be absent. -/
  | key (base : Expr) (name : String)
  /-- A direct child of a context node. -/
  | nodeChild (base : Expr) (name : String)
  /-- A child of a context node or of the nearest node around it that has one. -/
  | nodeSearch (base : Expr) (name : String)
  /-- Whether the loop with the index variable is at its first step. -/
  | first (loop : String)
  /-- Whether the loop with the index variable is at its last step. -/
  | last (loop : String)
  | index (loop : String) (oneBased : Bool)
  /-- Whether an enum value is the named variant. -/
  | is (base : Expr) (variant : String)
  deriving DecidableEq, Repr

def Expr.describe : Expr → String
  | var name => name
  | field base name => base.describe ++ "." ++ name
  | key base name => base.describe ++ "[" ++ Text.quoted name ++ "]"
  | nodeChild base name => base.describe ++ ".get(" ++ Text.quoted name ++ ")"
  | nodeSearch base name => base.describe ++ ".find(" ++ Text.quoted name ++ ")"
  | first loop => loop ++ ".first"
  | last loop => loop ++ ".last"
  | index loop true => loop ++ " + 1"
  | index loop false => loop
  | is base variant => base.describe ++ " is " ++ variant

/-- When a section is entered. An inverted section is entered when the same guard passes zero
times. -/
inductive Guard where
  /-- Passes once when the value is true. -/
  | truthy (value : Expr)
  /-- Passes once when the value is there. -/
  | present (value : Expr)
  /-- Passes once for each element of a sequence. -/
  | each (sequence : Expr) (element index : String)
  /-- Passes once for each child of a sequence node, and once for any other node that is not
  falsey. -/
  | eachNode (node : Expr) (element index : String)
  deriving DecidableEq, Repr

def Guard.describe : Guard → String
  | truthy value => "if " ++ value.describe
  | present value => "if present " ++ value.describe
  | each sequence element index => s!"for ({index}, {element}) in {sequence.describe}"
  | eachNode node element index => s!"for ({index}, {element}) in node {node.describe}"

inductive Escaping where
  | escaped
  | raw
  deriving DecidableEq, Repr

/-- What a lambda's result is: text, or a model that is bound to a variable. -/
inductive LambdaKind where
  | raw
  | model (variableName : String)
  deriving DecidableEq, Repr

structure LambdaCall where
  name : String
  body : String
  current : Expr
  escaping : Escaping
  kind : LambdaKind
  indent : String
  deriving DecidableEq, Repr

end Stencil
