import Stencil.Json.Written
import Stencil.Shape.Schema

/-!
Schemas, shapes and options as JSON. Entries that are not known are passed over whatever is written
there, and a known entry may be given only once.
-/

namespace Stencil

namespace Json.Written

/-- A known entry: absent, given once, or given more often, which is refused. -/
def once? (entries : List (String × Written)) (name : String) : Option (Option Written) :=
  match entries.filter (·.1 = name) with
  | [] => some none
  | [entry] => some (some entry.2)
  | _ => none

def onceOr? {α : Type} (entries : List (String × Written)) (name : String) (absent : α)
    (decode : Written → Option α) : Option α := do
  match ← once? entries name with
  | none => some absent
  | some value => decode value

def asTable? {α : Type} (decode : Written → Option α) (value : Written) : Option (Table α) := do
  let entries ← value.entries?
  let decoded ← entries.mapM fun entry => (decode entry.2).map (entry.1, ·)
  return Table.ofList decoded

def asBool? (value : Written) : Option Bool := value.scalar?.bind Json.asBool?

def asNat? (value : Written) : Option Nat := value.scalar?.bind Json.asNat?

def asString? (value : Written) : Option String := value.scalar?.bind Json.asString?

def asOptionalString? : Written → Option (Option String)
  | scalar .null => some none
  | value => value.asString?.map some

end Json.Written

open Json (Written)

/-- A shape: the name of a plain one, or an object whose only entry is a kind and its detail. -/
def Shape.ofWritten? : Written → Option Shape
  | .scalar (.string "bool") | .object [("bool", .scalar .null)] => some .bool
  | .scalar (.string "text") | .object [("text", .scalar .null)] => some .text
  | .scalar (.string "number") | .object [("number", .scalar .null)] => some .number
  | .scalar (.string "dynamic") | .object [("dynamic", .scalar .null)] => some .dynamic
  | .object [("optional", inner)] => (ofWritten? inner).map .optional
  | .object [("sequence", element)] => (ofWritten? element).map .sequence
  | .object [("mapping", value)] => (ofWritten? value).map .mapping
  | .object [("struct", name)] => name.asString?.map .struct
  | .object [("enum", name)] => name.asString?.map .enum
  | _ => none

def LambdaResult.ofWritten? : Written → Option LambdaResult
  | .scalar (.string "raw") | .object [("raw", .scalar .null)] => some .raw
  | .object [("model", shape)] => (Shape.ofWritten? shape).map .model
  | _ => none

def LambdaDecl.ofWritten? (value : Written) : Option LambdaDecl := do
  let entries ← value.entries?
  return {
    returns := ← Written.onceOr? entries "returns" .raw LambdaResult.ofWritten?
    escaped := ← Written.onceOr? entries "escaped" false Written.asBool?
    template := ← Written.onceOr? entries "template" none Written.asOptionalString?
    path := ← Written.onceOr? entries "path" none Written.asOptionalString? }

def StructDecl.ofWritten? (value : Written) : Option StructDecl := do
  let entries ← value.entries?
  return {
    fields := ← Written.onceOr? entries "fields" [] (Written.asTable? Shape.ofWritten?)
    lambdas := ← Written.onceOr? entries "lambdas" [] (Written.asTable? LambdaDecl.ofWritten?) }

def EnumDecl.ofWritten? (value : Written) : Option EnumDecl := do
  let entries ← value.entries?
  let variants ← (← Written.once? entries "variants").bind Written.items?
  return ⟨← variants.mapM Written.asString?⟩

def Schema.ofWritten? (value : Written) : Option Schema := do
  let entries ← value.entries?
  return {
    root := ← (← Written.once? entries "root").bind Shape.ofWritten?
    structs := ← Written.onceOr? entries "structs" [] (Written.asTable? StructDecl.ofWritten?)
    enums := ← Written.onceOr? entries "enums" [] (Written.asTable? EnumDecl.ofWritten?) }

def Options.ofWritten? (value : Written) : Option Options := do
  let entries ← value.entries?
  return ⟨← Written.onceOr? entries "max_include_depth" Options.default.maxIncludeDepth
    Written.asNat?⟩

end Stencil
