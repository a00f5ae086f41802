import Stencil.Shape.Basic
import Stencil.Table

/-!
Schemas: the shape of the data of a template, with the structs, enums and lambdas it refers to.
-/

namespace Stencil

inductive LambdaResult where
  | raw
  | model (shape : Shape)
  deriving DecidableEq, Repr

/-- A lambda that sections may be named for. A model is rendered with the inline template or the
template at the path if there is one, and else with the body of the section. -/
structure LambdaDecl where
  returns : LambdaResult
  escaped : Bool
  template : Option String
  path : Option String
  deriving DecidableEq, Repr

namespace LambdaDecl

def raw : LambdaDecl := ⟨.raw, false, none, none⟩

def model (shape : Shape) : LambdaDecl := ⟨.model shape, false, none, none⟩

end LambdaDecl

structure StructDecl where
  fields : Table Shape
  lambdas : Table LambdaDecl
  deriving DecidableEq, Repr

structure EnumDecl where
  variants : List String
  deriving DecidableEq, Repr

structure Schema where
  root : Shape
  structs : Table StructDecl
  enums : Table EnumDecl
  deriving DecidableEq, Repr

namespace Schema

def ofRoot (root : Shape) : Schema := ⟨root, [], []⟩

def dynamic : Schema := ofRoot .dynamic

def withStruct (schema : Schema) (name : String) (shape : StructDecl) : Schema :=
  { schema with structs := schema.structs.insert name shape }

def withEnum (schema : Schema) (name : String) (variants : List String) : Schema :=
  { schema with enums := schema.enums.insert name ⟨variants⟩ }

def struct? (schema : Schema) (name : String) : Option StructDecl := schema.structs.get? name

def enum? (schema : Schema) (name : String) : Option EnumDecl := schema.enums.get? name

def lambdas (schema : Schema) : Table LambdaDecl :=
  match schema.root with
  | .struct name => ((schema.struct? name).map StructDecl.lambdas).getD []
  | _ => []

end Schema

structure Options where
  /-- How deeply partials, parents and lambdas may nest. -/
  maxIncludeDepth : Nat
  deriving DecidableEq, Repr

def Options.default : Options := ⟨64⟩

end Stencil
