import Stencil.Proofs.Program.Spelling
import Stencil.Proofs.Render.Renaming

/-!
Events under new names of the variables. Main statement: they spell out the same instructions under
the new names.
-/

namespace Stencil

variable {ρ : Renaming}

def Call.rename (ρ : Renaming) : Call → Call
  | .value expr escaping => .value (expr.rename ρ) escaping
  | .enterSection guard => .enterSection (guard.rename ρ)
  | .enterInverted guard => .enterInverted (guard.rename ρ)
  | call => call

namespace Construct

def rename (ρ : Renaming) : Construct → Construct
  | conditional guard => conditional (guard.rename ρ)
  | inverted guard => inverted (guard.rename ρ)
  | inclusion name => inclusion name
  | block name => block name

theorem enter_rename (construct : Construct) :
    construct.enter.rename ρ = (construct.rename ρ).enter := by
  cases construct <;> rfl

theorem exit_rename (construct : Construct) :
    construct.exit.rename ρ = (construct.rename ρ).exit := by
  cases construct <;> rfl

theorem close_rename (construct : Construct) (body : List Instruction) :
    (construct.close body).rename ρ = (construct.rename ρ).close (renameAll ρ body) := by
  cases construct <;> simp [close, rename, Instruction.rename]

end Construct

/-- Events and the same events under new names. What the template of a lambda becomes is told only
where it could be compiled. -/
inductive Renames (ρ : Renaming) : List Event → List Event → Prop where
  | nil : Renames ρ [] []
  | call (call : Call) {rest others : List Event} : Renames ρ rest others →
      Renames ρ (.call call :: rest) (.call (call.rename ρ) :: others)
  | lambda (call : LambdaCall) {inner otherInner rest others : List Event} :
      Renames ρ inner otherInner → Renames ρ rest others →
      Renames ρ (.lambda call (.ok inner) :: rest)
        (.lambda (call.rename ρ) (.ok otherInner) :: others)
  | failed (call : LambdaCall) (error : CompileError) (template : Except CompileError (List Event))
      {rest others : List Event} : Renames ρ rest others →
      Renames ρ (.lambda call (.error error) :: rest) (.lambda (call.rename ρ) template :: others)

variable {first second events others : List Event} {instructions : List Instruction}

namespace Renames

theorem append {otherFirst otherSecond : List Event} (renamesFirst : Renames ρ first otherFirst)
    (renamesSecond : Renames ρ second otherSecond) :
    Renames ρ (first ++ second) (otherFirst ++ otherSecond) := by
  induction renamesFirst with
  | nil => exact renamesSecond
  | call call _ ih => exact .call call ih
  | lambda call inner _ _ ih => exact .lambda call inner ih
  | failed call error template _ ih => exact .failed call error template ih

theorem of_append (renames : Renames ρ (first ++ second) others) :
    ∃ otherFirst otherSecond, others = otherFirst ++ otherSecond ∧
      Renames ρ first otherFirst ∧ Renames ρ second otherSecond := by
  induction first generalizing others with
  | nil => exact ⟨[], others, rfl, .nil, renames⟩
  | cons event first ih =>
      cases renames with
      | call call rest =>
          obtain ⟨front, more, rfl, here, further⟩ := ih rest
          exact ⟨_ :: front, more, rfl, .call call here, further⟩
      | lambda call inner rest =>
          obtain ⟨front, more, rfl, here, further⟩ := ih rest
          exact ⟨_ :: front, more, rfl, .lambda call inner here, further⟩
      | failed call error template rest =>
          obtain ⟨front, more, rfl, here, further⟩ := ih rest
          exact ⟨_ :: front, more, rfl, .failed call error template here, further⟩

theorem single {call otherCall : LambdaCall} {template other : Except CompileError (List Event)}
    (same : otherCall = call.rename ρ)
    (each : ∀ inner, template = .ok inner → ∃ others, other = .ok others ∧ Renames ρ inner others) :
    Renames ρ [.lambda call template] [.lambda otherCall other] := by
  subst same
  cases template with
  | error problem => exact .failed call problem other .nil
  | ok inner =>
      obtain ⟨others, rfl, renames⟩ := each inner rfl
      exact .lambda call renames .nil

theorem enterSections (guards : List Guard) :
    Renames ρ (guards.map fun guard => .call (.enterSection guard))
      ((guards.map (Guard.rename ρ)).map fun guard => .call (.enterSection guard)) := by
  induction guards with
  | nil => exact .nil
  | cons guard guards ih => exact .call (.enterSection guard) ih

theorem exitSections (count : Nat) :
    Renames ρ (List.replicate count (.call .exitSection))
      (List.replicate count (.call .exitSection)) := by
  induction count with
  | zero => exact .nil
  | succ count ih => exact .call .exitSection ih

end Renames

theorem Spells.rename (spells : Spells events instructions) (renames : Renames ρ events others) :
    Spells others (renameAll ρ instructions) := by
  induction spells generalizing others with
  | nil =>
      cases renames
      rw [renameAll]
      exact .nil
  | literal text _ ih =>
      cases renames with
      | call _ rest =>
          rw [renameAll, Instruction.rename]
          exact .literal text (ih rest)
  | value expr escaping _ ih =>
      cases renames with
      | call _ rest =>
          rw [renameAll, Instruction.rename]
          exact .value (expr.rename ρ) escaping (ih rest)
  | construct construct _ _ ihInner ihRest =>
      cases renames with
      | call _ rest =>
          obtain ⟨inner, more, rfl, here, further⟩ := rest.of_append
          cases further with
          | call _ after =>
              rw [renameAll, construct.close_rename, construct.enter_rename,
                construct.exit_rename]
              exact .construct (construct.rename ρ) (ihInner here) (ihRest after)
  | rawLambda template raw _ ih =>
      rw [renameAll, Instruction.rename]
      cases renames with
      | lambda call _ rest => exact .rawLambda _ (congrArg (LambdaKind.rename ρ) raw) (ih rest)
      | failed call error template rest =>
          exact .rawLambda _ (congrArg (LambdaKind.rename ρ) raw) (ih rest)
  | modelLambda model _ _ ihInner ihRest =>
      rw [renameAll, Instruction.rename]
      cases renames with
      | lambda call inner rest =>
          exact .modelLambda (congrArg (LambdaKind.rename ρ) model) (ihInner inner) (ihRest rest)

end Stencil
