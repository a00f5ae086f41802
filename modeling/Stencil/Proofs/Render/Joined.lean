import Stencil.Proofs.Program.Spelling
import Stencil.Proofs.Results
import Stencil.Render.Basic

/-!
Joining adjacent literals changes no rendering.
-/

namespace Stencil

theorem Text.join_flatten (parts : List (List String)) :
    String.join parts.flatten = String.join (parts.map String.join) := by
  induction parts with
  | nil => rfl
  | cons part parts ih =>
      rw [List.flatten_cons, String.join_append, ih, List.map_cons, String.join_cons]

namespace Renderer

variable (renderer : Renderer) (bindings : Bindings)

theorem runAll_append (first second : List Instruction) :
    renderer.runAll bindings (first ++ second) = do
      let text ← renderer.runAll bindings first
      return text ++ (← renderer.runAll bindings second) := by
  induction first with
  | nil =>
      cases outcome : renderer.runAll bindings second with
      | error problem => simp [runAll, outcome]
      | ok text => simp [runAll, outcome]
  | cons instruction rest ih =>
      simp only [List.cons_append, runAll, ih]
      cases renderer.run bindings instruction with
      | error problem => rfl
      | ok text =>
          cases renderer.runAll bindings rest with
          | error problem => rfl
          | ok more =>
              cases renderer.runAll bindings second with
              | error problem => rfl
              | ok last => simp [String.append_assoc]

theorem runAll_singleton (instruction : Instruction) :
    renderer.runAll bindings [instruction] = renderer.run bindings instruction := by
  cases outcome : renderer.run bindings instruction with
  | error problem => simp [runAll, outcome]
  | ok text => simp [runAll, outcome]

theorem runAll_appendText (text : String) (written : List Instruction) :
    renderer.runAll bindings (Program.appendText text written).reverse =
      renderer.runAll bindings (written.reverse ++ [.literal text]) := by
  unfold Program.appendText
  split
  · next before earlier =>
      simp only [List.reverse_cons, runAll_append, List.append_assoc, List.cons_append,
        List.nil_append]
      cases renderer.runAll bindings earlier.reverse with
      | error problem => rfl
      | ok more => simp [runAll, run]
  · simp

mutual

theorem runAll_addJoined (written : List Instruction) (instruction : Instruction)
    (bindings : Bindings) :
    renderer.runAll bindings (addJoined written instruction).reverse =
      renderer.runAll bindings (written.reverse ++ [instruction]) := by
  cases instruction with
  | literal text =>
      simp only [addJoined]
      split
      · next empty =>
          have none : text = "" := by simpa using empty
          rw [runAll_append, none]
          cases renderer.runAll bindings written.reverse with
          | error problem => rfl
          | ok more => simp [runAll, run]
      · exact runAll_appendText renderer bindings text written
  | value expr escaping => simp [addJoined]
  | conditional guard body | inverted guard body | inclusion name body | block name body =>
      have same := runAll_joinOnto [] body
      simp only [List.reverse_nil, List.nil_append] at same
      simp only [addJoined, List.reverse_cons, runAll_append, runAll_singleton, run, same]
  | lambda call template =>
      cases template with
      | none => simp [addJoined]
      | some body =>
          have same := runAll_joinOnto [] body
          simp only [List.reverse_nil, List.nil_append] at same
          simp only [addJoined, List.reverse_cons, runAll_append, runAll_singleton, run, same]

theorem runAll_joinOnto (written : List Instruction) (instructions : List Instruction)
    (bindings : Bindings) :
    renderer.runAll bindings (joinOnto written instructions).reverse =
      renderer.runAll bindings (written.reverse ++ instructions) := by
  cases instructions with
  | nil => simp [joinOnto]
  | cons instruction rest =>
      rw [joinOnto, runAll_joinOnto, runAll_append, runAll_addJoined, ← runAll_append,
        List.append_assoc, List.cons_append, List.nil_append]

end

/-- The text of instructions does not depend on how their literals are joined. -/
theorem runAll_joined (instructions : List Instruction) :
    renderer.runAll bindings (joined instructions) = renderer.runAll bindings instructions :=
  runAll_joinOnto renderer [] instructions bindings

end Renderer

end Stencil
