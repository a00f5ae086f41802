import Mathlib.Data.List.Forall2

/-!
Results that may be errors or missing: what it takes for one step after another to succeed, and
results that are related.
-/

namespace Stencil

variable {ε α β : Type}

theorem bind_eq_ok {first : Except ε α} {next : α → Except ε β} {result : β} :
    (first >>= next) = .ok result ↔ ∃ value, first = .ok value ∧ next value = .ok result := by
  cases first with
  | error problem => simp [bind, Except.bind]
  | ok value => simp [bind, Except.bind]

theorem bind_eq_error {first : Except ε α} {next : α → Except ε β} {problem : ε} :
    (first >>= next) = .error problem ↔
      first = .error problem ∨ ∃ value, first = .ok value ∧ next value = .error problem := by
  cases first with
  | error sooner => simp [bind, Except.bind]
  | ok value => simp [bind, Except.bind]

theorem eq_ok_of_isOk {outcome : Except ε α} (success : outcome.isOk = true) :
    ∃ value, outcome = .ok value := by
  cases outcome with
  | error problem => cases success
  | ok value => exact ⟨value, rfl⟩

theorem eq_ok_of_toOption {outcome : Except ε α} {value : α}
    (found : outcome.toOption = some value) : outcome = .ok value := by
  cases outcome with
  | error problem => cases found
  | ok result => exact congrArg Except.ok (Option.some.inj found)

theorem map_eq_ok {change : α → β} {outcome : Except ε α} {result : β} :
    outcome.map change = .ok result ↔ ∃ value, outcome = .ok value ∧ change value = result := by
  cases outcome with
  | error problem => simp [Except.map]
  | ok value => simp [Except.map]

theorem map_eq_error {change : α → β} {outcome : Except ε α} {problem : ε} :
    outcome.map change = .error problem ↔ outcome = .error problem := by
  cases outcome <;> simp [Except.map]

theorem mapError_eq_ok {ζ : Type} {change : ε → ζ} {outcome : Except ε α} {value : α} :
    outcome.mapError change = .ok value ↔ outcome = .ok value := by
  cases outcome with
  | error problem => simp [Except.mapError]
  | ok found => simp [Except.mapError]

@[simp] theorem ok_bind (value : α) (next : α → Except ε β) :
    ((.ok value : Except ε α) >>= next) = next value := rfl

@[simp] theorem error_bind (problem : ε) (next : α → Except ε β) :
    ((.error problem : Except ε α) >>= next) = .error problem := rfl

@[simp] theorem pure_eq_ok (value : α) : (pure value : Except ε α) = .ok value := rfl

@[simp] theorem throw_eq_error (problem : ε) :
    (throw problem : Except ε α) = .error problem := rfl

theorem mapM_eq_ok {step : α → Except ε β} {items : List α} {results : List β} :
    items.mapM step = .ok results ↔
      List.Forall₂ (fun item result => step item = .ok result) items results := by
  induction items generalizing results with
  | nil =>
      constructor
      · intro done
        simp only [List.mapM_nil, pure_eq_ok, Except.ok.injEq] at done
        subst done
        exact .nil
      · rintro ⟨⟩
        rfl
  | cons item rest ih =>
      rw [List.mapM_cons]
      constructor
      · intro done
        obtain ⟨result, first, done⟩ := bind_eq_ok.mp done
        obtain ⟨more, later, done⟩ := bind_eq_ok.mp done
        simp only [pure_eq_ok, Except.ok.injEq] at done
        subst done
        exact .cons first (ih.mp later)
      · intro done
        cases done with
        | cons first later => rw [first, ok_bind, ih.mpr later, ok_bind, pure_eq_ok]

theorem exists_mapM_ok {step : α → Except ε β} {items : List α}
    (each : ∀ item ∈ items, ∃ result, step item = .ok result) :
    ∃ results, items.mapM step = .ok results := by
  induction items with
  | nil => exact ⟨[], rfl⟩
  | cons item rest ih =>
      obtain ⟨⟨result, first⟩, tail⟩ := List.forall_mem_cons.mp each
      obtain ⟨more, later⟩ := ih tail
      exact ⟨result :: more, by rw [List.mapM_cons, first, ok_bind, later, ok_bind, pure_eq_ok]⟩

theorem mapM_map {γ : Type} {step : α → Except ε β} {change : β → γ} (items : List α) :
    items.mapM (fun item => (step item).map change) = (items.mapM step).map (List.map change) := by
  induction items with
  | nil => rfl
  | cons item items ih =>
      rw [List.mapM_cons, List.mapM_cons, ih]
      cases step item with
      | error problem => rfl
      | ok result => cases items.mapM step <;> rfl

theorem mapM_flatten {step : α → Except ε β} (lists : List (List α)) :
    lists.flatten.mapM step = (lists.mapM (List.mapM step)).map List.flatten := by
  induction lists with
  | nil => rfl
  | cons list rest ih =>
      rw [List.flatten_cons, List.mapM_append, ih, List.mapM_cons]
      cases list.mapM step with
      | error problem => rfl
      | ok first => cases rest.mapM (List.mapM step) <;> rfl

theorem mapM_eq_of_forall₂ {γ : Type} {step : α → Except ε β} {other : γ → Except ε β}
    {items : List α} {others : List γ}
    (each : List.Forall₂ (fun item found => step item = other found) items others) :
    items.mapM step = others.mapM other := by
  induction each with
  | nil => rfl
  | cons here _ ih => rw [List.mapM_cons, List.mapM_cons, here, ih]

theorem exists_of_mem_forall₂ {R : α → β → Prop} {first : List α} {second : List β}
    (each : List.Forall₂ R first second) {b : β} (member : b ∈ second) : ∃ a, R a b := by
  induction each with
  | nil => cases member
  | cons head _ ih =>
      obtain rfl | later := List.mem_cons.mp member
      · exact ⟨_, head⟩
      · exact ih later

theorem exists_mapM_eq {γ : Type} {step : α → Except ε β} {other : γ → Option β} {items : List α}
    {others : List γ}
    (each : List.Forall₂ (fun item found => ∃ result, step item = .ok result ∧
      other found = some result) items others) :
    ∃ results, items.mapM step = .ok results ∧ others.mapM other = some results := by
  induction each with
  | nil => exact ⟨[], rfl, rfl⟩
  | cons first _ ih =>
      obtain ⟨result, here, there⟩ := first
      obtain ⟨results, step, other⟩ := ih
      refine ⟨result :: results, ?_, ?_⟩
      · rw [List.mapM_cons, here, ok_bind, step, ok_bind, pure_eq_ok]
      · rw [List.mapM_cons, there, other]
        rfl

theorem exists_mapM_forall₂ {γ : Type} {step : α → Except ε β} {T : β → γ → Prop} {items : List α}
    {others : List γ}
    (each : List.Forall₂ (fun item other => ∃ result, step item = .ok result ∧ T result other) items
      others) : ∃ results, items.mapM step = .ok results ∧ List.Forall₂ T results others := by
  induction each with
  | nil => exact ⟨[], rfl, .nil⟩
  | cons first _ ih =>
      obtain ⟨result, here, related⟩ := first
      obtain ⟨results, further, rest⟩ := ih
      exact ⟨result :: results, by rw [List.mapM_cons, here, ok_bind, further, ok_bind, pure_eq_ok],
        .cons related rest⟩

section

variable {R S : α → β → Prop} {first : Option α} {second : Option β}

theorem rel_imp (weaker : ∀ a b, R a b → S a b) (rel : Option.Rel R first second) :
    Option.Rel S first second := by
  cases rel with
  | none => exact .none
  | some related => exact .some (weaker _ _ related)

theorem rel_none : Option.Rel R none second ↔ second = none := by
  constructor
  · rintro ⟨⟩
    rfl
  · rintro rfl
    exact .none

theorem rel_some {value : α} :
    Option.Rel R (some value) second ↔ ∃ other, second = some other ∧ R value other := by
  constructor
  · rintro ⟨related⟩
    exact ⟨_, rfl, related⟩
  · rintro ⟨other, rfl, related⟩
    exact .some related

end

end Stencil
