import Stencil.Proofs.Render.Bindings
import Stencil.Render.Basic

/-!
Rendering under new names of the variables. Main statement: instructions whose variables are renamed
give the same text where the variables are bound to the same values.
-/

namespace Stencil

def LambdaKind.rename (ρ : Renaming) : LambdaKind → LambdaKind
  | raw => raw
  | model variableName => model (ρ.apply variableName)

def LambdaCall.rename (ρ : Renaming) (call : LambdaCall) : LambdaCall :=
  { call with current := call.current.rename ρ, kind := call.kind.rename ρ }

mutual

def Instruction.rename (ρ : Renaming) : Instruction → Instruction
  | .literal text => .literal text
  | .value expr escaping => .value (expr.rename ρ) escaping
  | .conditional guard body => .conditional (guard.rename ρ) (renameAll ρ body)
  | .inverted guard body => .inverted (guard.rename ρ) (renameAll ρ body)
  | .inclusion name body => .inclusion name (renameAll ρ body)
  | .block name body => .block name (renameAll ρ body)
  | .lambda call none => .lambda (call.rename ρ) none
  | .lambda call (some body) => .lambda (call.rename ρ) (some (renameAll ρ body))

def renameAll (ρ : Renaming) : List Instruction → List Instruction
  | [] => []
  | instruction :: rest => instruction.rename ρ :: renameAll ρ rest

end

theorem LambdaCall.rename_refl (call : LambdaCall) : call.rename .refl = call := by
  obtain ⟨_, _, current, _, kind, _⟩ := call
  cases kind <;> simp [rename, LambdaKind.rename, Expr.rename_refl]

mutual

theorem Instruction.rename_refl : (instruction : Instruction) →
    instruction.rename .refl = instruction
  | .literal _ => by simp [Instruction.rename]
  | .value _ _ => by simp [Instruction.rename, Expr.rename_refl]
  | .conditional _ body | .inverted _ body => by
      simp [Instruction.rename, Guard.rename_refl, renameAll_refl body]
  | .inclusion _ body | .block _ body => by simp [Instruction.rename, renameAll_refl body]
  | .lambda _ none => by simp [Instruction.rename, LambdaCall.rename_refl]
  | .lambda _ (some body) => by
      simp [Instruction.rename, LambdaCall.rename_refl, renameAll_refl body]

theorem renameAll_refl : (instructions : List Instruction) →
    renameAll .refl instructions = instructions
  | [] => by simp [renameAll]
  | instruction :: rest => by
      simp [renameAll, Instruction.rename_refl instruction, renameAll_refl rest]

end

namespace Bindings

variable {ρ : Renaming} {bindings : Bindings} {value : Value} {expr : Expr}

def rename (ρ : Renaming) (bindings : Bindings) : Bindings :=
  bindings.map fun binding => (ρ.apply binding.1, binding.2)

theorem rename_root (name : String) (data : Json) (context : ContextNode) :
    (root name data context).rename ρ = root name data context := by
  simp only [root, rename, List.map_cons, List.map_nil, ρ.root "data" (by decide),
    ρ.root "context" (by decide), ρ.root "template" (by decide)]

theorem lookup_rename (bindings : Bindings) (name : String) :
    (bindings.rename ρ).lookup (ρ.apply name) = bindings.lookup name := by
  induction bindings with
  | nil => rfl
  | cons binding bindings ih =>
      have same : (ρ.apply name == ρ.apply binding.1) = (name == binding.1) := by
        rw [Bool.eq_iff_iff, beq_iff_eq, beq_iff_eq]
        exact ρ.injective.eq_iff
      rw [rename, List.map_cons, List.lookup_cons, List.lookup_cons, same]
      cases name == binding.1 with
      | true => rfl
      | false => exact ih

theorem eval_rename (found : bindings.eval expr = .ok value) :
    (bindings.rename ρ).eval (expr.rename ρ) = .ok value :=
  eval_rename_of (fun name _ hit => (lookup_rename bindings name).trans hit) found

theorem rename_loop (bindings : Bindings) (element index : String) (values : List Value) :
    (bindings.rename ρ).loop (ρ.apply element) (ρ.apply index) values =
      (bindings.loop element index values).map (rename ρ) := by
  refine List.ext_getElem (by simp [loop]) fun position here there => ?_
  simp [loop, withStep, rename]

theorem passes_rename {guard : Guard} {inner : List Bindings}
    (done : bindings.passes guard = .ok inner) :
    (bindings.rename ρ).passes (guard.rename ρ) = .ok (inner.map (rename ρ)) := by
  cases guard with
  | truthy expr | present expr =>
      obtain ⟨value, found, same⟩ := bind_eq_ok.mp done
      cases same
      simp only [Guard.rename, passes, eval_rename found, ok_bind, pure_eq_ok]
      split <;> rfl
  | each items element index =>
      obtain ⟨elements, found, same⟩ := bind_eq_ok.mp done
      cases same
      have listed : (bindings.rename ρ).sequence (items.rename ρ) = .ok elements := by
        obtain ⟨value, evaluated, cut⟩ := bind_eq_ok.mp found
        simp only [sequence, eval_rename evaluated, ok_bind]
        cases value with
        | json content => cases content <;> first | exact cut | cases cut
        | step _ _ => cases cut
        | node _ | missing => exact cut
      simp only [Guard.rename, passes, listed, ok_bind, pure_eq_ok, rename_loop]
  | eachNode node element index =>
      obtain ⟨steps, found, same⟩ := bind_eq_ok.mp done
      cases same
      have listed : (bindings.rename ρ).nodeSteps (node.rename ρ) = .ok steps := by
        obtain ⟨value, evaluated, cut⟩ := bind_eq_ok.mp found
        simp only [nodeSteps, eval_rename evaluated, ok_bind]
        exact cut
      simp only [Guard.rename, passes, listed, ok_bind, pure_eq_ok, rename_loop]

end Bindings

namespace Renderer

variable {ρ : Renaming} {renderer : Renderer} {bindings : Bindings} {text : String}

theorem lambdaOutput_rename {call : LambdaCall}
    {template? other? : Option (Bindings → Except RenderError String)}
    (same : Option.Rel (fun template other => ∀ inner text, template inner = .ok text →
      other (inner.rename ρ) = .ok text) template? other?)
    (done : renderer.lambdaOutput bindings call template? = .ok text) :
    renderer.lambdaOutput (bindings.rename ρ) (call.rename ρ) other? = .ok text := by
  unfold lambdaOutput at done ⊢
  have named : (call.rename ρ).name = call.name := rfl
  rw [named]
  cases known : renderer.lambdas.get? call.name with
  | none =>
      rw [known] at done
      cases done
  | some lambda =>
      rw [known] at done
      obtain ⟨current, found, done⟩ := bind_eq_ok.mp done
      have value : (bindings.rename ρ).eval (call.rename ρ).current = .ok current :=
        Bindings.eval_rename found
      have given : (call.rename ρ).body = call.body := rfl
      have bound : (call.rename ρ).kind = call.kind.rename ρ := rfl
      simp only [value, ok_bind, given, bound]
      cases answer : lambda call.body current.toJson with
      | raw text =>
          simp only [answer] at done
          exact done
      | model value =>
          cases kind : call.kind with
          | raw => simp [answer, kind] at done
          | model name =>
              cases same with
              | none => simp [answer, kind] at done
              | some related =>
                  simp only [answer, kind] at done
                  obtain ⟨output, made, done⟩ := bind_eq_ok.mp done
                  exact bind_eq_ok.mpr ⟨output, related _ _ made, done⟩

mutual

theorem run_rename (bindings : Bindings) (instruction : Instruction) {text : String}
    (done : renderer.run bindings instruction = .ok text) :
    renderer.run (bindings.rename ρ) (instruction.rename ρ) = .ok text := by
  cases instruction with
  | literal content =>
      rw [Instruction.rename]
      exact done
  | value expr escaping =>
      rw [run] at done
      obtain ⟨value, found, same⟩ := bind_eq_ok.mp done
      rw [Instruction.rename, run, Bindings.eval_rename found, ok_bind]
      exact same
  | conditional guard body =>
      rw [run] at done
      obtain ⟨inner, passed, done⟩ := bind_eq_ok.mp done
      obtain ⟨texts, each, same⟩ := bind_eq_ok.mp done
      have renamed : (inner.map (Bindings.rename ρ)).mapM
          (fun inner => renderer.runAll inner (renameAll ρ body)) = .ok texts := by
        rw [mapM_eq_ok, List.forall₂_map_left_iff]
        exact (mapM_eq_ok.mp each).imp fun _ _ ran => runAll_rename _ body ran
      rw [Instruction.rename, run, Bindings.passes_rename passed, ok_bind, renamed, ok_bind]
      exact same
  | inverted guard body =>
      rw [run] at done
      obtain ⟨inner, passed, done⟩ := bind_eq_ok.mp done
      rw [Instruction.rename, run, Bindings.passes_rename passed, ok_bind, List.isEmpty_map]
      split at done
      · next failed =>
          rw [if_pos failed]
          exact runAll_rename _ body done
      · next entered =>
          rw [if_neg entered]
          exact done
  | inclusion name body | block name body =>
      rw [run] at done
      rw [Instruction.rename, run]
      exact runAll_rename _ body done
  | lambda call template =>
      cases template with
      | none =>
          rw [run] at done
          rw [Instruction.rename, run]
          exact lambdaOutput_rename .none done
      | some body =>
          rw [run] at done
          rw [Instruction.rename, run]
          exact lambdaOutput_rename (.some fun inner text ran => runAll_rename inner body ran) done

/-- Instructions give the same text under the new names of the variables. -/
theorem runAll_rename (bindings : Bindings) (instructions : List Instruction) {text : String}
    (done : renderer.runAll bindings instructions = .ok text) :
    renderer.runAll (bindings.rename ρ) (renameAll ρ instructions) = .ok text := by
  cases instructions with
  | nil =>
      rw [renameAll]
      exact done
  | cons instruction rest =>
      rw [runAll] at done
      obtain ⟨first, here, done⟩ := bind_eq_ok.mp done
      obtain ⟨more, further, same⟩ := bind_eq_ok.mp done
      rw [renameAll, runAll, run_rename _ instruction here, ok_bind, runAll_rename _ rest further,
        ok_bind]
      exact same

end

end Renderer

end Stencil
