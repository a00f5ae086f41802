import Stencil.Proofs.Results
import Stencil.Proofs.Scope.Fresh
import Stencil.Scope.Meaning

/-!
What a section over a value does, shape by shape: the guards that it puts around its body, and the
scope in which the body stands.
-/

namespace Stencil

def Shape.isSingle : Shape → Bool
  | struct _ | mapping _ | text | number | enum _ => true
  | bool | optional _ | sequence _ | dynamic => false

namespace Scope

variable {schema : Schema} {scope inside : Scope} {expr : Expr} {names after : FreshNames}
  {shape : Shape} {guard : Guard} {guards : List Guard} {name : String}

theorem structDecl_ok {decl : StructDecl} (declared : structDecl schema name = .ok decl) :
    schema.struct? name = some decl := by
  unfold structDecl at declared
  split at declared <;> simp_all

theorem sectionOver_bool
    (opened : sectionOver schema scope expr names .bool = .ok (guards, inside, after)) :
    guards = [.truthy expr] ∧ inside = .guard ⟨expr, .bool⟩ :: scope ∧ after = names := by
  cases opened
  exact ⟨rfl, rfl, rfl⟩

theorem sectionOver_optional
    (opened : sectionOver schema scope expr names (.optional shape) = .ok (guards, inside, after)) :
    ∃ within, sectionOver schema scope expr names shape = .ok (within, inside, after) ∧
      guards = addPresent expr within := by
  obtain ⟨⟨within, body, last⟩, deeper, same⟩ := bind_eq_ok.mp opened
  cases same
  exact ⟨within, deeper, rfl⟩

theorem sectionOver_sequence
    (opened : sectionOver schema scope expr names (.sequence shape) = .ok (guards, inside, after)) :
    ∃ element index, names.LoopNames element index after ∧
      guards = .each expr element index :: (elementLayer (.var element) shape).1 ∧
      inside = (elementLayer (.var element) shape).2 :: .iteration index :: scope := by
  cases opened
  exact ⟨_, _, ⟨_, rfl, rfl⟩, rfl, rfl⟩

theorem sectionOver_dynamic
    (opened : sectionOver schema scope expr names .dynamic = .ok (guards, inside, after)) :
    ∃ element index, names.LoopNames element index after ∧
      guards = [.eachNode expr element index] ∧
      inside = .value ⟨.var element, .dynamic⟩ :: .iteration index :: scope := by
  cases opened
  exact ⟨_, _, ⟨_, rfl, rfl⟩, rfl, rfl⟩

theorem sectionOver_single (single : shape.isSingle = true)
    (opened : sectionOver schema scope expr names shape = .ok (guards, inside, after)) :
    guards = [.present expr] ∧ inside = .value ⟨expr, shape⟩ :: scope ∧ after = names := by
  cases shape with
  | struct structName =>
      obtain ⟨decl, -, same⟩ := bind_eq_ok.mp opened
      cases same
      exact ⟨rfl, rfl, rfl⟩
  | text | number | mapping _ | enum _ =>
      cases opened
      exact ⟨rfl, rfl, rfl⟩
  | bool | optional _ | sequence _ | dynamic => cases single

theorem guardOver_sequence (opened : guardOver expr names (.sequence shape) = (guard, after)) :
    ∃ element index, names.LoopNames element index after ∧ guard = .each expr element index := by
  cases opened
  exact ⟨_, _, ⟨_, rfl, rfl⟩, rfl⟩

theorem guardOver_dynamic (opened : guardOver expr names .dynamic = (guard, after)) :
    ∃ element index, names.LoopNames element index after ∧
      guard = .eachNode expr element index := by
  cases opened
  exact ⟨_, _, ⟨_, rfl, rfl⟩, rfl⟩

theorem guardOver_single (single : shape.isSingle = true)
    (opened : guardOver expr names shape = (guard, after)) :
    guard = .present expr ∧ after = names := by
  cases shape with
  | struct _ | text | number | mapping _ | enum _ =>
      cases opened
      exact ⟨rfl, rfl⟩
  | bool | optional _ | sequence _ | dynamic => cases single

theorem extends_sectionOver
    (opened : sectionOver schema scope expr names shape = .ok (guards, inside, after)) :
    after.Extends names := by
  induction shape generalizing guards with
  | bool =>
      obtain ⟨-, -, rfl⟩ := sectionOver_bool opened
      exact .refl _
  | optional inner ih =>
      obtain ⟨within, deeper, -⟩ := sectionOver_optional opened
      exact ih deeper
  | sequence _ =>
      obtain ⟨element, index, loop, -⟩ := sectionOver_sequence opened
      exact FreshNames.extends_loop loop
  | dynamic =>
      obtain ⟨element, index, loop, -⟩ := sectionOver_dynamic opened
      exact FreshNames.extends_loop loop
  | struct _ | text | number | mapping _ | enum _ =>
      obtain ⟨-, -, rfl⟩ := sectionOver_single rfl opened
      exact .refl _

theorem extends_guardOver (opened : guardOver expr names shape = (guard, after)) :
    after.Extends names := by
  induction shape with
  | optional inner ih => exact ih opened
  | sequence _ =>
      obtain ⟨element, index, loop, -⟩ := guardOver_sequence opened
      exact FreshNames.extends_loop loop
  | dynamic =>
      obtain ⟨element, index, loop, -⟩ := guardOver_dynamic opened
      exact FreshNames.extends_loop loop
  | bool | text | number | mapping _ | struct _ | enum _ =>
      cases opened
      exact .refl _

end Scope

end Stencil
