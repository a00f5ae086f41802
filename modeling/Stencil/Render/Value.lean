import Stencil.Program.Expr
import Stencil.Render.Error

/-!
The values of variables, expressions and guards while a program is rendered.
-/

namespace Stencil

inductive Value where
  | json (value : Json)
  | node (node : ContextNode)
  /-- The state of a loop. -/
  | step (index length : Nat)
  | missing

namespace Value

def toJson : Value → Json
  | json value => value
  | .node n => n.value
  | step index _ => .int index
  | missing => .null

def isTruthy : Value → Bool
  | json (.bool value) => value
  | json .null | missing => false
  | json _ | step _ _ => true
  | .node n => !n.isFalsey

def isPresent : Value → Bool
  | json .null | missing => false
  | .node n => !n.isEmpty
  | json _ | step _ _ => true

def text : Value → String
  | json value => value.text
  | .node n => n.text
  | step index _ => toString index
  | missing => ""

def ofNode? (child? : Option ContextNode) : Value :=
  match child? with
  | some child => node child
  | none => missing

def toNode : Value → Except RenderError ContextNode
  | .node n => .ok n
  | .missing => .ok .empty
  | other => (ContextNode.ofSource (.value other.toJson)).mapError .node

def part (value : Value) (name : String) : Value :=
  match value with
  | .json (.object entries) =>
      match Table.get? entries name with
      | some entry => .json entry
      | none => .missing
  | .node n => .ofNode? (n.get? name)
  | _ => .missing

def isText (value : Value) (text : String) : Bool :=
  match value with
  | .json (.string content) => content = text
  | _ => false

end Value

abbrev Bindings := List (String × Value)

namespace Bindings

def root (name : String) (data : Json) (context : ContextNode) : Bindings :=
  [("data", .json data), ("context", .node context),
    ("template", .json (.object [("name", .string name)]))]

def withStep (bindings : Bindings) (element : String) (value : Value) (index : String)
    (position length : Nat) : Bindings :=
  (index, .step position length) :: (element, value) :: bindings

/-- Position and length of the loop with the given index variable. -/
def loopState (bindings : Bindings) (index : String) : Except RenderError (Nat × Nat) :=
  match bindings.lookup index with
  | some (.step position length) => .ok (position, length)
  | _ => .error (.unboundVariable index)

def eval (bindings : Bindings) : Expr → Except RenderError Value
  | .var name =>
      match bindings.lookup name with
      | some value => .ok value
      | none => .error (.unboundVariable name)
  | .field base name | .key base name => do
      return (← eval bindings base).part name
  | .nodeChild base name => do
      let node ← (← eval bindings base).toNode
      return .node ((node.get? name).getD .empty)
  | .nodeSearch base name => do
      let node ← (← eval bindings base).toNode
      return .node ((node.find? name).getD .empty)
  | .first index => do
      let (position, _) ← loopState bindings index
      return .json (.bool (position = 0))
  | .last index => do
      let (position, length) ← loopState bindings index
      return .json (.bool (position + 1 = length))
  | .index index oneBased => do
      let (position, _) ← loopState bindings index
      return .json (.int (if oneBased then position + 1 else position))
  | .is base variant => do
      return .json (.bool ((← eval bindings base).isText variant))

def sequence (bindings : Bindings) (expr : Expr) : Except RenderError (List Json) := do
  match ← eval bindings expr with
  | .json (.array items) => return items
  | .json .null | .missing => return []
  | .node node => return node.steps.map ContextNode.value
  | .json _ | .step _ _ => throw (.notASequence expr.describe)

def nodeSteps (bindings : Bindings) (expr : Expr) : Except RenderError (List ContextNode) := do
  return (← (← eval bindings expr).toNode).steps

def loop (bindings : Bindings) (element index : String) (values : List Value) : List Bindings :=
  values.mapIdx fun position value =>
    bindings.withStep element value index position values.length

/-- The variables of each time that a guard passes. -/
def passes (bindings : Bindings) : Guard → Except RenderError (List Bindings)
  | .truthy expr => do return if (← eval bindings expr).isTruthy then [bindings] else []
  | .present expr => do return if (← eval bindings expr).isPresent then [bindings] else []
  | .each items element index => do
      return loop bindings element index ((← sequence bindings items).map .json)
  | .eachNode node element index => do
      return loop bindings element index ((← nodeSteps bindings node).map .node)

end Bindings

end Stencil
