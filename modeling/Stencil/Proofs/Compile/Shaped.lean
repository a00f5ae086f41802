import Stencil.Proofs.Compile.Run
import Stencil.Proofs.Program.Shaped
import Stencil.Proofs.Scope.Sections

/-!
Compiled programs have static shapes. What carries the proof is that all values in scope are made of
variables that the guards and lambdas around them bind, and that new variables hide none of these.
Main statement: the variables of a compiled program are bound to what it takes.
-/

namespace Stencil

def Guard.allSlots? (schema : Schema) (slots : Slots) (guards : List Guard) : Option Slots :=
  guards.foldlM (Guard.slots? schema) slots

variable {schema : Schema} {slots inner : Slots} {names after : FreshNames} {scope inside : Scope}
  {expr : Expr} {shape : Shape} {guards : List Guard}

namespace Guard

@[simp] theorem allSlots?_nil : allSlots? schema slots [] = some slots := rfl

@[simp] theorem allSlots?_cons (guard : Guard) (guards : List Guard) :
    allSlots? schema slots (guard :: guards) =
      (guard.slots? schema slots).bind (allSlots? schema · guards) := rfl

theorem allSlots?_addPresent (shaped : expr.shape? schema slots = some shape)
    (guards : List Guard) :
    allSlots? schema slots (Scope.addPresent expr guards) = allSlots? schema slots guards := by
  unfold Scope.addPresent
  split
  · rfl
  · simp [slots?, shaped]

end Guard

theorem allShaped_nest {body : List Instruction} :
    AllShaped schema slots (nest guards body) ↔
      ∃ inner, Guard.allSlots? schema slots guards = some inner ∧ AllShaped schema inner body := by
  induction guards generalizing slots with
  | nil => simp [nest]
  | cons guard guards ih =>
      rw [nest, allShaped_singleton, Instruction.Shaped]
      simp only [ih, Guard.allSlots?_cons, Option.bind_eq_some_iff]
      constructor
      · rintro ⟨middle, passed, inner, more, body⟩
        exact ⟨inner, ⟨middle, passed, more⟩, body⟩
      · rintro ⟨inner, ⟨middle, passed, more⟩, body⟩
        exact ⟨middle, passed, inner, more, body⟩

def Typed (schema : Schema) (slots : Slots) (found : ShapedExpr) : Prop :=
  ∃ shape, found.expr.shape? schema slots = some shape ∧ shape.core = found.shape.core

namespace Typed

theorem of_shape? (shaped : expr.shape? schema slots = some shape) :
    Typed schema slots ⟨expr, shape⟩ := ⟨shape, shaped, rfl⟩

theorem of_keeps {later : Slots} {found : ShapedExpr} (more : FreshNames.Keeps later slots)
    (typed : Typed schema slots found) : Typed schema later found := by
  obtain ⟨shape, shaped, same⟩ := typed
  exact ⟨shape, Expr.shape?_of_keeps more shaped, same⟩

theorem child {found part : ShapedExpr} {name : String} (typed : Typed schema slots found)
    (step : Scope.child? schema found name = .ok (some part)) : Typed schema slots part := by
  obtain ⟨expr, whole⟩ := found
  obtain ⟨shape, shaped, same⟩ := typed
  simp only at shaped same
  cases whole with
  | bool | text | number | optional _ | sequence _ => simp [Scope.child?] at step
  | dynamic =>
      simp only [Scope.child?, Except.ok.injEq, Option.some.injEq] at step
      subst step
      exact of_shape? (by simp [Expr.shape?, shaped, same, Shape.core])
  | mapping value =>
      simp only [Scope.child?, Except.ok.injEq, Option.some.injEq] at step
      subst step
      exact of_shape? (by simp [Expr.shape?, shaped, same, Shape.core])
  | struct structName =>
      obtain ⟨decl, declared, step⟩ := bind_eq_ok.mp step
      simp only [pure_eq_ok, Except.ok.injEq, Option.map_eq_some_iff] at step
      obtain ⟨field, given, rfl⟩ := step
      have known : schema.struct? structName = some decl := Scope.structDecl_ok declared
      exact of_shape? (by simp [Expr.shape?, shaped, same, Shape.core, known, given])
  | enum enumName =>
      simp only [Scope.child?] at step
      split at step
      · simp at step
      · simp only [Except.ok.injEq, Option.ite_none_right_eq_some, Option.some.injEq] at step
        obtain ⟨-, rfl⟩ := step
        exact of_shape? (by simp [Expr.shape?, shaped, same, Shape.core])

theorem search {found : ShapedExpr} (name : String) (typed : Typed schema slots found)
    (dynamic : found.shape.isDynamic = true) :
    Typed schema slots ⟨.nodeSearch found.expr name, .dynamic⟩ := by
  obtain ⟨shape, shaped, same⟩ := typed
  have whole : found.shape = .dynamic := by
    cases given : found.shape <;> simp_all [Shape.isDynamic]
  exact of_shape? (by simp [Expr.shape?, shaped, same, whole, Shape.core])

theorem iteration {index : String} (bound : slots.lookup index = some .step) :
    Scope.LayerHolds (Typed schema slots) (.iteration index) := by
  intro name hit looped
  unfold Scope.loopName? at looped
  repeat' split at looped
  all_goals
    cases looped
    try exact of_shape? (by rw [Expr.shape?, if_pos bound])

theorem hereditary : Scope.Hereditary schema (Typed schema slots) := ⟨child, search⟩

end Typed

structure Supports (schema : Schema) (slots : Slots) (names : FreshNames) (scope : Scope) :
    Prop where
  holds : Scope.Holds (Typed schema slots) scope
  taken : names.Covers slots
  current : scope.current?.isSome

namespace Supports

theorem root (schema : Schema) :
    Supports schema (.root schema) .root (.root schema.root) := by
  refine ⟨?_, ?_, rfl⟩
  · have data : Typed schema (.root schema) ⟨.var "data", schema.root⟩ := .of_shape? rfl
    have context : Typed schema (.root schema) ⟨.var "context", .dynamic⟩ := .of_shape? rfl
    have template : Typed schema (.root schema) ⟨.var "template", .mapping .text⟩ := .of_shape? rfl
    refine Scope.holds_cons.mpr ⟨data, Scope.holds_cons.mpr ⟨?_, by simp [Scope.Holds]⟩⟩
    intro binding member
    simp only [List.mem_cons, List.not_mem_nil, or_false] at member
    rcases member with rfl | rfl | rfl
    · exact data
    · exact context
    · exact template
  · intro entry member
    apply FreshNames.taken_root
    simp only [Slots.root, List.mem_cons, List.not_mem_nil, or_false] at member
    rcases member with rfl | rfl | rfl <;> simp [FreshNames.rootNames]

theorem later (supports : Supports schema slots names scope) (more : after.Extends names) :
    Supports schema slots after scope :=
  ⟨supports.holds, supports.taken.later more, supports.current⟩

theorem layer {layer : Layer} (supports : Supports schema slots names scope)
    (layerHolds : Scope.LayerHolds (Typed schema slots) layer) :
    Supports schema slots names (layer :: scope) := by
  refine ⟨Scope.holds_cons.mpr ⟨layerHolds, supports.holds⟩, supports.taken, ?_⟩
  have current := supports.current
  unfold Scope.current? at current ⊢
  rw [List.findSome?_cons]
  split
  · rfl
  · exact current

theorem extend {later : Slots} (supports : Supports schema slots names scope)
    (covers : after.Covers later) (keeps : FreshNames.Keeps later slots) :
    Supports schema later after scope :=
  ⟨supports.holds.imp fun _ => Typed.of_keeps keeps, covers, supports.current⟩

theorem loop {element index : String} (supports : Supports schema slots names scope)
    (shape : Shape) (loop : names.LoopNames element index after) :
    let bound : Slots := (index, .step) :: (element, .value shape) :: slots
    Supports schema bound after (.iteration index :: scope) ∧
      Typed schema bound ⟨.var element, shape⟩ := by
  obtain ⟨covers, keeps, element⟩ := supports.taken.loop loop (.value shape) Slot.step
  refine ⟨(supports.extend covers keeps).layer (Typed.iteration (by simp)), .of_shape? ?_⟩
  simp only [Expr.shape?, element]

end Supports

theorem elementLayer_typed {layer : Layer} (typed : Typed schema slots ⟨expr, shape⟩)
    (opened : Scope.elementLayer expr shape = (guards, layer)) :
    Guard.allSlots? schema slots guards = some slots ∧
      Scope.LayerHolds (Typed schema slots) layer := by
  obtain ⟨found, shaped, same⟩ := typed
  dsimp only at shaped same
  induction shape generalizing guards with
  | bool =>
      cases opened
      exact ⟨by simp [Guard.slots?, shaped], found, shaped, same⟩
  | optional inner ih =>
      cases opened
      obtain ⟨passed, holds⟩ := ih rfl same
      exact ⟨by rw [Guard.allSlots?_addPresent shaped, passed], holds⟩
  | text | number | dynamic | sequence _ | mapping _ | struct _ | enum _ =>
      cases opened
      exact ⟨rfl, found, shaped, same⟩

theorem sectionOver_supports (supports : Supports schema slots names scope)
    (typed : Typed schema slots ⟨expr, shape⟩)
    (opened : Scope.sectionOver schema scope expr names shape = .ok (guards, inside, after)) :
    ∃ inner, Guard.allSlots? schema slots guards = some inner ∧
      Supports schema inner after inside := by
  obtain ⟨found, shaped, same⟩ := typed
  dsimp only at shaped same
  induction shape generalizing guards with
  | bool =>
      obtain ⟨rfl, rfl, rfl⟩ := Scope.sectionOver_bool opened
      exact ⟨slots, by simp [Guard.slots?, shaped], supports.layer ⟨found, shaped, same⟩⟩
  | optional inner ih =>
      obtain ⟨within, deeper, rfl⟩ := Scope.sectionOver_optional opened
      rw [Guard.allSlots?_addPresent shaped]
      exact ih deeper same
  | sequence shape =>
      obtain ⟨element, index, loop, rfl, rfl⟩ := Scope.sectionOver_sequence opened
      obtain ⟨looped, element⟩ := supports.loop shape loop
      obtain ⟨passed, holds⟩ := elementLayer_typed element rfl
      refine ⟨_, ?_, looped.layer holds⟩
      simp [Guard.slots?, shaped, same, Shape.core, passed]
  | dynamic =>
      obtain ⟨element, index, loop, rfl, rfl⟩ := Scope.sectionOver_dynamic opened
      obtain ⟨looped, element⟩ := supports.loop .dynamic loop
      refine ⟨_, ?_, looped.layer element⟩
      simp [Guard.slots?, shaped, same, Shape.core]
  | struct _ | text | number | mapping _ | enum _ =>
      obtain ⟨rfl, rfl, rfl⟩ := Scope.sectionOver_single rfl opened
      exact ⟨slots, by simp [Guard.slots?, shaped], supports.layer ⟨found, shaped, same⟩⟩

theorem guardOver_slots? {guard : Guard} (typed : Typed schema slots ⟨expr, shape⟩)
    (opened : Scope.guardOver expr names shape = (guard, after)) :
    (guard.slots? schema slots).isSome := by
  obtain ⟨found, shaped, same⟩ := typed
  dsimp only at shaped same
  induction shape with
  | optional inner ih => exact ih opened same
  | sequence _ =>
      obtain ⟨element, index, loop, rfl⟩ := Scope.guardOver_sequence opened
      simp [Guard.slots?, shaped, same, Shape.core]
  | dynamic =>
      obtain ⟨element, index, loop, rfl⟩ := Scope.guardOver_dynamic opened
      simp [Guard.slots?, shaped, same, Shape.core]
  | bool =>
      cases opened
      simp [Guard.slots?, shaped]
  | text | number | mapping _ | struct _ | enum _ =>
      obtain ⟨rfl, rfl⟩ := Scope.guardOver_single rfl opened
      simp [Guard.slots?, shaped]

namespace Supports

theorem refers {name : String} {purpose : NameUse} {found : ShapedExpr}
    (supports : Supports schema slots names scope)
    (refers : Scope.Refers schema scope name purpose found) : Typed schema slots found :=
  Scope.holds_refers Typed.hereditary supports.holds refers

theorem currentExpr (supports : Supports schema slots names scope) :
    (scope.currentExpr.shape? schema slots).isSome := by
  obtain ⟨found, current⟩ := Option.isSome_iff_exists.mp supports.current
  obtain ⟨shape, shaped, -⟩ := Scope.holds_current supports.holds current
  simp [Scope.currentExpr, current, shaped]

end Supports

namespace Compile

theorem Derives.shaped {indent : String} {last : FreshNames} {tokens : List LineToken}
    {instructions : List Instruction}
    (derives : Derives schema indent scope names tokens instructions last)
    (supports : Supports schema slots names scope) : AllShaped schema slots instructions := by
  induction derives generalizing slots with
  | nil => trivial
  | indent _ _ ih => exact ⟨trivial, ih supports⟩
  | silent _ _ _ ih => exact ih supports
  | text _ _ ih => exact ⟨trivial, ih supports⟩
  | @value _ _ _ _ _ _ kind _ purpose _ found _ _ _ writing means _ ih =>
      have written := TagKind.purpose_of_writing? writing
      obtain ⟨other, refers, writable, same, rfl⟩ := Scope.meaning_variable written means
      cases same
      obtain ⟨shape, shaped, core⟩ := supports.refers refers
      refine ⟨⟨shape, shaped, ?_⟩, ih supports⟩
      rw [← Shape.isWritable_core, core, Shape.isWritable_core, writable]
  | openSection _ _ means _ _ ihBody ihRest =>
      rcases Scope.meaning_openSection means with
        ⟨found, guards, inside, refers, opened, same⟩ | lambda
      · cases same
        obtain ⟨inner, passed, inside⟩ :=
          sectionOver_supports supports (supports.refers refers) opened
        have more := Scope.extends_sectionOver opened
        exact allShaped_append.mpr
          ⟨allShaped_nest.mpr ⟨inner, passed, ihBody inside⟩, ihRest (supports.later more)⟩
      · obtain ⟨decl, -, same, -⟩ := lambda
        cases same
  | openInverted _ _ means _ _ ihBody ihRest =>
      obtain ⟨found, guard, refers, opened, same⟩ := Scope.meaning_openInverted means
      cases same
      have shaped := guardOver_slots? (supports.refers refers) opened
      have more := Scope.extends_guardOver opened
      exact ⟨⟨shaped, ihBody ((supports.later more).layer trivial)⟩, ihRest (supports.later more)⟩
  | block _ _ _ _ ihBody ihRest => exact ⟨ihBody supports, ihRest supports⟩
  | inclusion _ _ _ _ ihBody ihRest => exact ⟨ihBody supports, ihRest supports⟩
  | rawLambda _ means returns _ current _ ih =>
      refine ⟨⟨?_, _, ?_, returns⟩, ih supports⟩
      · rw [current]
        exact supports.currentExpr
      · exact Scope.meaning_lambda means
  | @modelLambda _ _ _ _ _ _ _ _ shape _ _ _ _ _ _ means returns kind current _ _ ihBody ihRest =>
      refine ⟨⟨?_, _, _, _, Scope.meaning_lambda means, returns, kind, ihBody ?_⟩, ihRest supports⟩
      · rw [current]
        exact supports.currentExpr
      · have covers := supports.taken.fresh FreshNames.plainBase_model (Slot.value shape)
        have keeps := supports.taken.keeps_fresh FreshNames.plainBase_model (Slot.value shape)
        refine (supports.extend covers keeps).layer (.of_shape? ?_)
        simp [Expr.shape?]

end Compile

/-- The variables of a compiled program are bound to what it takes. -/
theorem Program.compile_shaped {library : Library} {options : Options} {template : Template}
    {program : Program} (compiled : Program.compile schema library options template = .ok program) :
    AllShaped schema (.root schema) program.instructions := by
  obtain ⟨lines, instructions, last, -, derives, rfl⟩ := compile_derives compiled
  exact (allShaped_joined _ _).mpr (derives.shaped (.root schema))

end Stencil
