import Stencil.Proofs.Program.Spelling
import Stencil.Proofs.Scope.Fresh
import Stencil.Shape.Schema

/-!
Static shapes of programs: what is known of the variables at each instruction, and of the values of
the expressions made of them. Main statement: joining literals leaves the shapes of a program alone.
-/

namespace Stencil

namespace Shape

def core : Shape → Shape
  | optional inner => inner.core
  | shape => shape

theorem isWritable_core (shape : Shape) : shape.core.isWritable = shape.isWritable := by
  induction shape with
  | optional inner ih => exact ih
  | _ => rfl

end Shape

/-- What a variable holds: a value of some shape, or the state of a loop. -/
inductive Slot where
  | value (shape : Shape)
  | step
  deriving DecidableEq, Repr

abbrev Slots := List (String × Slot)

namespace Slots

def root (schema : Schema) : Slots :=
  [("data", .value schema.root), ("context", .value .dynamic),
    ("template", .value (.mapping .text))]

end Slots

variable (schema : Schema)

/-- The shape of an expression's value, if all of its variables are bound to what it takes. -/
def Expr.shape? (slots : Slots) : Expr → Option Shape
  | .var name =>
      match slots.lookup name with
      | some (.value shape) => some shape
      | _ => none
  | .field base name =>
      match (base.shape? slots).map Shape.core with
      | some (.struct structName) => (schema.struct? structName).bind (·.fields.get? name)
      | _ => none
  | .key base _ =>
      match (base.shape? slots).map Shape.core with
      | some (.mapping value) => some value
      | _ => none
  | .nodeChild base _ | .nodeSearch base _ =>
      match (base.shape? slots).map Shape.core with
      | some .dynamic => some .dynamic
      | _ => none
  | .first loop | .last loop => if slots.lookup loop = some .step then some .bool else none
  | .index loop _ => if slots.lookup loop = some .step then some .number else none
  | .is base _ =>
      match (base.shape? slots).map Shape.core with
      | some (.enum _) => some .bool
      | _ => none

def Guard.slots? (slots : Slots) : Guard → Option Slots
  | .truthy expr | .present expr => (expr.shape? schema slots).map fun _ => slots
  | .each items element index =>
      match (items.shape? schema slots).map Shape.core with
      | some (.sequence shape) => some ((index, .step) :: (element, .value shape) :: slots)
      | _ => none
  | .eachNode node element index =>
      match (node.shape? schema slots).map Shape.core with
      | some .dynamic => some ((index, .step) :: (element, .value .dynamic) :: slots)
      | _ => none

mutual

def Instruction.Shaped (slots : Slots) : Instruction → Prop
  | .literal _ => True
  | .value expr _ => ∃ shape, expr.shape? schema slots = some shape ∧ shape.isWritable = true
  | .conditional guard body =>
      ∃ inside, guard.slots? schema slots = some inside ∧ AllShaped inside body
  | .inverted guard body => (guard.slots? schema slots).isSome ∧ AllShaped slots body
  | .inclusion _ body | .block _ body => AllShaped slots body
  | .lambda call none =>
      (call.current.shape? schema slots).isSome ∧
        ∃ decl, schema.lambdas.get? call.name = some decl ∧ decl.returns = .raw
  | .lambda call (some body) =>
      (call.current.shape? schema slots).isSome ∧
        ∃ decl shape variableName, schema.lambdas.get? call.name = some decl ∧
          decl.returns = .model shape ∧ call.kind = .model variableName ∧
          AllShaped ((variableName, .value shape) :: slots) body

def AllShaped (slots : Slots) : List Instruction → Prop
  | [] => True
  | instruction :: rest => instruction.Shaped slots ∧ AllShaped slots rest

end

variable {schema : Schema} {slots later : Slots}

theorem Expr.shape?_of_keeps {expr : Expr} {shape : Shape} (more : FreshNames.Keeps later slots)
    (shaped : expr.shape? schema slots = some shape) : expr.shape? schema later = some shape := by
  induction expr generalizing shape with
  | var name =>
      simp only [shape?] at shaped ⊢
      split at shaped
      · next found hit => rwa [more _ _ hit]
      · simp at shaped
  | field base name ih | key base name ih | nodeChild base name ih | nodeSearch base name ih
  | is base name ih =>
      simp only [shape?] at shaped ⊢
      split at shaped
      · next core =>
          obtain ⟨found, hit, same⟩ := Option.map_eq_some_iff.mp core
          rwa [ih hit, Option.map_some, same]
      · simp at shaped
  | first loop | last loop | index loop oneBased =>
      simp only [shape?, Option.ite_none_right_eq_some] at shaped ⊢
      exact ⟨more _ _ shaped.1, shaped.2⟩

theorem allShaped_append {first second : List Instruction} :
    AllShaped schema slots (first ++ second) ↔
      AllShaped schema slots first ∧ AllShaped schema slots second := by
  induction first with
  | nil => simp [AllShaped]
  | cons instruction rest ih => simp only [List.cons_append, AllShaped, ih, and_assoc]

theorem allShaped_singleton {instruction : Instruction} :
    AllShaped schema slots [instruction] ↔ instruction.Shaped schema slots := by
  simp [AllShaped]

theorem allShaped_appendText (text : String) (written : List Instruction) :
    AllShaped schema slots (Program.appendText text written).reverse ↔
      AllShaped schema slots written.reverse := by
  unfold Program.appendText
  split
  · simp [allShaped_append, AllShaped, Instruction.Shaped]
  · simp [allShaped_append, AllShaped, Instruction.Shaped]

mutual

theorem allShaped_addJoined (slots : Slots) (written : List Instruction)
    (instruction : Instruction) :
    AllShaped schema slots (addJoined written instruction).reverse ↔
      AllShaped schema slots written.reverse ∧ instruction.Shaped schema slots := by
  cases instruction with
  | literal text =>
      simp only [addJoined]
      split
      · simp [Instruction.Shaped]
      · simp [allShaped_appendText, Instruction.Shaped]
  | value expr escaping => simp [addJoined, allShaped_append, allShaped_singleton]
  | conditional guard body | inverted guard body | inclusion name body | block name body =>
      simp [addJoined, allShaped_append, Instruction.Shaped, allShaped_joinOnto _ [] body,
        AllShaped]
  | lambda call template =>
      cases template with
      | none => simp [addJoined, allShaped_append, allShaped_singleton]
      | some body =>
          simp [addJoined, allShaped_append, Instruction.Shaped, allShaped_joinOnto _ [] body,
            AllShaped]

theorem allShaped_joinOnto (slots : Slots) (written : List Instruction)
    (instructions : List Instruction) :
    AllShaped schema slots (joinOnto written instructions).reverse ↔
      AllShaped schema slots written.reverse ∧ AllShaped schema slots instructions := by
  cases instructions with
  | nil => simp [joinOnto, AllShaped]
  | cons instruction rest =>
      rw [joinOnto, allShaped_joinOnto, allShaped_addJoined, AllShaped, and_assoc]

end

theorem allShaped_joined (slots : Slots) (instructions : List Instruction) :
    AllShaped schema slots (joined instructions) ↔ AllShaped schema slots instructions := by
  unfold joined
  rw [allShaped_joinOnto]
  simp [AllShaped]

end Stencil
