/-!
Shapes: what is known of a value before it is there.
-/

namespace Stencil

/-- The shape of a value. Structs and enums are named and declared in a schema. -/
inductive Shape where
  | bool
  | text
  | number
  /-- Any value at all, inspected only when it is rendered. -/
  | dynamic
  | optional (inner : Shape)
  | sequence (element : Shape)
  | mapping (value : Shape)
  | struct (name : String)
  | enum (name : String)
  deriving DecidableEq, Repr

namespace Shape

def isBool : Shape → Bool
  | bool => true
  | _ => false

def isMapping : Shape → Bool
  | mapping _ => true
  | _ => false

def isDynamic : Shape → Bool
  | dynamic => true
  | _ => false

def isOpenEnded (shape : Shape) : Bool := shape.isMapping || shape.isDynamic

def isWritable : Shape → Bool
  | bool | text | number | dynamic | enum _ => true
  | optional inner => inner.isWritable
  | sequence _ | mapping _ | struct _ => false

def describe : Shape → String
  | bool => "bool"
  | text => "text"
  | number => "number"
  | dynamic => "dynamic"
  | optional inner => "optional<" ++ inner.describe ++ ">"
  | sequence element => "sequence<" ++ element.describe ++ ">"
  | mapping value => "mapping<" ++ value.describe ++ ">"
  | struct name => "struct " ++ name
  | enum name => "enum " ++ name

end Shape

end Stencil
