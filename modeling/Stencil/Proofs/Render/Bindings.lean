import Stencil.Proofs.Results
import Stencil.Proofs.Scope.Renaming
import Stencil.Render.Value

/-!
Variables while a program is rendered: what is known of them statically, and the variables that the
steps of a loop add.
-/

namespace Stencil

namespace Bindings

variable {κ : Type} {R : κ → Value → Prop} {static : List (String × κ)} {bindings : Bindings}

def Match (R : κ → Value → Prop) (static : List (String × κ)) (bindings : Bindings) : Prop :=
  ∀ name known, static.lookup name = some known →
    ∃ value, bindings.lookup name = some value ∧ R known value

theorem Match.nil : Match R [] bindings := by
  intro name known hit
  simp at hit

theorem Match.cons {name : String} {known : κ} {value : Value} (related : R known value)
    (agrees : Match R static bindings) :
    Match R ((name, known) :: static) ((name, value) :: bindings) := by
  intro other found hit
  rw [List.lookup_cons] at hit ⊢
  cases same : other == name with
  | true =>
      rw [same] at hit
      cases hit
      exact ⟨value, rfl, related⟩
  | false =>
      rw [same] at hit
      exact agrees other found hit

theorem Match.loopState {loop : String} {known : κ} (agrees : Match R static bindings)
    (hit : static.lookup loop = some known)
    (step : ∀ value, R known value → ∃ position length, value = .step position length) :
    ∃ position length, bindings.loopState loop = .ok (position, length) := by
  obtain ⟨value, bound, related⟩ := agrees _ _ hit
  obtain ⟨position, length, rfl⟩ := step value related
  exact ⟨position, length, by simp [Bindings.loopState, bound]⟩

theorem mem_loop {element index : String} {values : List Value} {inner : Bindings} :
    inner ∈ bindings.loop element index values ↔
      ∃ position, ∃ bound : position < values.length,
        inner = bindings.withStep element values[position] index position values.length := by
  unfold loop
  rw [List.mem_mapIdx]
  simp only [eq_comm]

@[simp] theorem length_loop {element index : String} {values : List Value} :
    (bindings.loop element index values).length = values.length := by
  simp [loop]

theorem getElem?_loop {element index : String} {values : List Value} {inner : Bindings}
    {position : Nat} (hit : (bindings.loop element index values)[position]? = some inner) :
    ∃ value, inner = bindings.withStep element value index position values.length := by
  rw [loop, List.getElem?_mapIdx] at hit
  obtain ⟨value, -, same⟩ := Option.map_eq_some_iff.mp hit
  exact ⟨value, same.symm⟩

theorem eval_element {element index : String} (distinct : element ≠ index) (value : Value)
    (position length : Nat) :
    (bindings.withStep element value index position length).eval (.var element) = .ok value := by
  have other : (element == index) = false := by simpa using distinct
  simp [eval, withStep, List.lookup_cons, other]

@[simp] theorem isEmpty_loop {element index : String} {values : List Value} :
    (bindings.loop element index values).isEmpty = values.isEmpty := by
  cases values <;> simp [loop]

theorem Match.loop {element index : String} {values : List Value} {inner : Bindings}
    {step item : κ} (agrees : Match R static bindings)
    (steps : ∀ position length, R step (.step position length))
    (items : ∀ value ∈ values, R item value)
    (member : inner ∈ bindings.loop element index values) :
    Match R ((index, step) :: (element, item) :: static) inner := by
  obtain ⟨position, bound, rfl⟩ := mem_loop.mp member
  exact (agrees.cons (items _ (List.getElem_mem bound))).cons (steps _ _)

section

variable {ρ : Renaming} {later : Bindings} {expr : Expr}

theorem loopState_rename_of {index : String} {state : Nat × Nat}
    (keeps : ∀ name value, bindings.lookup name = some value →
      later.lookup (ρ.apply name) = some value)
    (found : bindings.loopState index = .ok state) :
    later.loopState (ρ.apply index) = .ok state := by
  unfold loopState at found ⊢
  split at found
  · next position length hit =>
      rw [keeps _ _ hit]
      exact found
  · cases found

theorem eval_rename_of {value : Value}
    (keeps : ∀ name value, bindings.lookup name = some value →
      later.lookup (ρ.apply name) = some value)
    (found : bindings.eval expr = .ok value) : later.eval (expr.rename ρ) = .ok value := by
  induction expr generalizing value with
  | var name =>
      simp only [eval, Expr.rename] at found ⊢
      split at found
      · next hit =>
          rw [keeps _ _ hit]
          exact found
      · cases found
  | field base name ih | key base name ih | is base name ih =>
      obtain ⟨inner, here, same⟩ := bind_eq_ok.mp found
      simp only [Expr.rename, eval, ih here, ok_bind]
      exact same
  | nodeChild base name ih | nodeSearch base name ih =>
      obtain ⟨inner, here, further⟩ := bind_eq_ok.mp found
      obtain ⟨node, made, same⟩ := bind_eq_ok.mp further
      simp only [Expr.rename, eval, ih here, made, ok_bind]
      exact same
  | first loop | last loop | index loop oneBased =>
      obtain ⟨state, here, same⟩ := bind_eq_ok.mp found
      simp only [Expr.rename, eval, loopState_rename_of keeps here, ok_bind]
      exact same

theorem loopState_of_keeps {index : String} {state : Nat × Nat}
    (keeps : FreshNames.Keeps later bindings) (found : bindings.loopState index = .ok state) :
    later.loopState index = .ok state :=
  loopState_rename_of (ρ := .refl) keeps found

theorem eval_of_keeps {value : Value} (keeps : FreshNames.Keeps later bindings)
    (found : bindings.eval expr = .ok value) : later.eval expr = .ok value := by
  have renamed : later.eval (expr.rename .refl) = .ok value := eval_rename_of keeps found
  rwa [Expr.rename_refl] at renamed

end

theorem covers_root (name : String) (data : Json) (context : ContextNode) :
    FreshNames.root.Covers (root name data context) := by
  intro entry member
  apply FreshNames.taken_root
  simp only [root, List.mem_cons, List.not_mem_nil, or_false] at member
  rcases member with rfl | rfl | rfl <;> simp [FreshNames.rootNames]

theorem forall₂_loop {τ : Type} {S : Bindings → τ → Prop} {element index : String}
    {values : List Value} {others : List τ} (length : values.length = others.length)
    (step : ∀ position (here : position < values.length) (there : position < others.length),
      S (bindings.withStep element values[position] index position values.length)
        others[position]) :
    List.Forall₂ S (bindings.loop element index values) others := by
  rw [List.forall₂_iff_get]
  refine ⟨by simp [loop, length], ?_⟩
  intro position here there
  have bound : position < values.length := by omega
  simpa [loop] using step position bound there

end Bindings

end Stencil
