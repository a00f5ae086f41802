import Stencil.Json.Writer

/-!
Context nodes: data that is only inspected when it is rendered. A node knows the nodes that it was
reached through, so a search that finds nothing in it goes on there.
-/

namespace Stencil

inductive NodeContent where
  | mapping (entries : List (String × Json))
  | sequence (items : List Json)
  | optional (value : Option Json)
  /-- Children that are made on demand. -/
  | function (lookup : String → Option Json)
  | leaf (value : Json)
  | empty

namespace NodeContent

def ofJson : Json → NodeContent
  | .object entries => mapping entries
  | .array items => sequence items
  | value => leaf value

def maxIndex : Nat := 0xFFFFFFFFFFFFFFFF

/-- The index that a name stands for: decimal digits, with or without a plus sign. -/
def index? (name : String) : Option Nat :=
  let digits := match name.toList with
    | '+' :: rest => rest
    | cs => cs
  if digits.isEmpty || !digits.all Char.isDigit then none
  else
    let n := digits.foldl (fun n c => n * 10 + (c.toNat - '0'.toNat)) 0
    if n ≤ maxIndex then some n else none

def child? (content : NodeContent) (name : String) : Option Json :=
  let value := match content with
    | mapping entries => Table.get? entries name
    | sequence items => (index? name).bind (items[·]?)
    | function lookup => lookup name
    | optional _ | leaf _ | empty => none
  value.filter (!·.isNull)

def isFalsey : NodeContent → Bool
  | mapping _ | function _ => false
  | sequence items => items.isEmpty
  | optional none | optional (some .null) => true
  | optional (some _) => false
  | leaf .null | leaf (.bool false) => true
  | leaf _ => false
  | empty => true

def value : NodeContent → Json
  | mapping entries => .object entries
  | sequence items => .array items
  | optional value => value.getD .null
  | leaf value => value
  | function _ | empty => .null

end NodeContent

def Json.text : Json → String
  | .string text => text
  | .null => ""
  | other => other.write

/-- A node with the contents of the nodes around it, nearest first. -/
structure ContextNode where
  content : NodeContent
  around : List NodeContent

inductive NodeSource where
  | value (value : Json)
  | optional (value : Option Json)
  | function (lookup : String → Option Json)
  | node (node : ContextNode)

inductive NodeError where
  | nestedNode
  deriving DecidableEq, Repr

def NodeError.message : NodeError → String
  | nestedNode => "a context node cannot wrap another context node"

namespace ContextNode

def empty : ContextNode := ⟨.empty, []⟩

def ofJson (value : Json) : ContextNode := ⟨.ofJson value, []⟩

/-- Makes a node within others; nodes are not wrapped twice. -/
def make (source : NodeSource) (around : List NodeContent) : Except NodeError ContextNode :=
  match source with
  | .value value => .ok ⟨.ofJson value, around⟩
  | .optional value => .ok ⟨.optional value, around⟩
  | .function lookup => .ok ⟨.function lookup, around⟩
  | .node _ => .error .nestedNode

def ofSource (source : NodeSource) : Except NodeError ContextNode := make source []

def ofChild (parent : ContextNode) (source : NodeSource) : Except NodeError ContextNode :=
  make source (parent.content :: parent.around)

def child (node : ContextNode) (value : Json) : ContextNode :=
  ⟨.ofJson value, node.content :: node.around⟩

def parent? (node : ContextNode) : Option ContextNode :=
  match node.around with
  | [] => none
  | content :: around => some ⟨content, around⟩

def isEmpty (node : ContextNode) : Bool :=
  match node.content with
  | .empty => true
  | _ => false

def isFalsey (node : ContextNode) : Bool := node.content.isFalsey

def value (node : ContextNode) : Json := node.content.value

def text (node : ContextNode) : String := node.value.text

def get? (node : ContextNode) (name : String) : Option ContextNode :=
  (node.content.child? name).map node.child

/-- Searches a content and those around it. What is found further out is put under the content
that the search began with. -/
def findFrom? (name : String) (content : NodeContent) : List NodeContent → Option ContextNode
  | [] => (content.child? name).map (ContextNode.mk content []).child
  | outer :: around =>
      match content.child? name with
      | some value => some ((ContextNode.mk content (outer :: around)).child value)
      | none =>
          (findFrom? name outer around).map fun found =>
            ⟨found.content, content :: outer :: around⟩

/-- A child of the node or of the nearest node around it that has one. -/
def find? (node : ContextNode) (name : String) : Option ContextNode :=
  findFrom? name node.content node.around

def steps (node : ContextNode) : List ContextNode :=
  match node.content with
  | .sequence items => items.map node.child
  | .optional (some value) => if value.isNull then [] else [node.child value]
  | _ => if node.isFalsey then [] else [node]

end ContextNode

end Stencil
