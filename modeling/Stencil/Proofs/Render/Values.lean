import Stencil.Proofs.Shape.Conformance
import Stencil.Render.Value

/-!
The values of expressions, as JSON values and as values that conform to a shape.
-/

namespace Stencil

theorem NodeContent.value_ofJson (value : Json) : (ofJson value).value = value := by
  cases value <;> rfl

namespace Value

theorem toNode_ok (value : Value) : ∃ node, value.toNode = .ok node := by
  cases value <;> exact ⟨_, rfl⟩

def json? : Value → Option Json
  | json value => some value
  | missing => some .null
  | node _ | step _ _ => none

section

variable {evaluated : Value} {value : Json}

theorem text_of_json? (same : evaluated.json? = some value) : evaluated.text = value.text := by
  cases evaluated <;> cases same <;> rfl

theorem isPresent_of_json? (same : evaluated.json? = some value) :
    evaluated.isPresent = !value.isNull := by
  cases evaluated with
  | json content =>
      cases same
      cases value <;> rfl
  | missing =>
      cases same
      rfl
  | node _ | step _ _ => cases same

theorem part_of_json? (same : evaluated.json? = some value) (name : String) :
    (evaluated.part name).json? = some (value.entry name) := by
  cases evaluated with
  | json content =>
      cases same
      cases value with
      | object entries =>
          simp only [part, Json.entry, Json.get?]
          cases Table.get? entries name <;> rfl
      | _ => rfl
  | missing =>
      cases same
      rfl
  | node _ | step _ _ => cases same

theorem isText_of_json? (same : evaluated.json? = some value) (text : String) :
    evaluated.isText text = decide (value.asString? = some text) := by
  cases evaluated with
  | json content =>
      cases same
      cases value <;> simp [isText, Json.asString?]
  | missing =>
      cases same
      simp [isText, Json.asString?]
  | node _ | step _ _ => cases same

theorem isTruthy_of_json? {schema : Schema} (same : evaluated.json? = some value)
    (conforms : Conforms schema value .bool) :
    evaluated.isTruthy = decide (value.asBool? = some true) := by
  cases evaluated with
  | json content =>
      cases same
      cases conforms with
      | null => rfl
      | bool => simp [isTruthy, Json.asBool?]
  | missing =>
      cases same
      rfl
  | node _ | step _ _ => cases same

end

variable {schema : Schema} {shape : Shape} {value : Value}

/-- That the value of an expression conforms to a shape. Nodes are values of which
nothing is known. -/
def Fits (schema : Schema) : Value → Shape → Prop
  | .json value, shape => Conforms schema value shape
  | .missing, _ => True
  | .node _, shape => shape.core = .dynamic
  | .step _ _, _ => False

/-- Whether a value is written as a scalar, or as nothing. -/
def isScalar : Value → Bool
  | .json value => value.isScalar
  | .missing => true
  | .node _ | .step _ _ => false

theorem Fits.isScalar (fits : value.Fits schema shape)
    (writable : shape.isWritable = true) (static : shape.hasDynamic = false) :
    value.isScalar = true := by
  cases value with
  | json value => exact Conforms.isScalar fits writable static
  | missing => rfl
  | node node =>
      induction shape with
      | optional inner ih => exact ih writable static fits
      | dynamic => cases static
      | _ => cases fits
  | step position length => cases fits

theorem Fits.of_json? {content : Json} (same : value.json? = some content)
    (conforms : Conforms schema content shape) : value.Fits schema shape := by
  cases value with
  | json other =>
      cases same
      exact conforms
  | missing => trivial
  | node _ | step _ _ => cases same

theorem Fits.entry {element : Shape} (fits : value.Fits schema shape)
    (mapping : shape.core = .mapping element) (name : String) :
    (value.part name).Fits schema element := by
  cases value with
  | json content => exact .of_json? (part_of_json? rfl name) (Conforms.entry fits mapping name)
  | missing => trivial
  | node node =>
      simp only [Fits, mapping] at fits
      cases fits
  | step position length => cases fits

theorem Fits.field {structName name : String} {decl : StructDecl} {field : Shape}
    (fits : value.Fits schema shape) (struct : shape.core = .struct structName)
    (known : schema.struct? structName = some decl) (given : decl.fields.get? name = some field) :
    (value.part name).Fits schema field := by
  cases value with
  | json content =>
      exact .of_json? (part_of_json? rfl name) (Conforms.field fits struct known given)
  | missing => trivial
  | node node =>
      simp only [Fits, struct] at fits
      cases fits
  | step position length => cases fits

end Value

end Stencil
