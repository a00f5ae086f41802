import Stencil.Proofs.Scope.Lookup
import Stencil.Proofs.Scope.Sections

/-!
Names without a schema. Main statement: wherever sections lead, a name that is no path, root name or
loop name refers to a value of which nothing is known.
-/

namespace Stencil

namespace Scope

variable {schema : Schema} {scope : Scope} {name : String} {purpose : NameUse}
  {names : FreshNames}

def LayerIsDynamic : Layer → Prop
  | .root bindings => ∀ binding ∈ bindings, binding.1.toList.head? = some '@'
  | .value found => found.shape = .dynamic
  | .iteration _ | .inverted => True
  | .guard _ => False

def IsDynamic (scope : Scope) : Prop := ∀ layer ∈ scope, LayerIsDynamic layer

theorem isDynamic_root : IsDynamic (root .dynamic) := by
  intro layer member
  simp only [root, List.mem_cons, List.not_mem_nil, or_false] at member
  rcases member with rfl | rfl
  · rfl
  · intro binding inside
    simp only [List.mem_cons, List.not_mem_nil, or_false] at inside
    rcases inside with rfl | rfl | rfl <;> rfl

theorem loopName?_plain (index : String) (noRoot : name.toList.head? ≠ some '@')
    (noLoop : name.toList.head? ≠ some '-') : loopName? index name = none := by
  unfold loopName?
  repeat' rw [if_neg]
  · rintro rfl
    exact noLoop rfl
  · rintro rfl
    exact noRoot rfl
  · rintro (rfl | rfl)
    · exact noRoot rfl
    · exact noLoop rfl
  · rintro (rfl | rfl)
    · exact noRoot rfl
    · exact noLoop rfl

theorem fixed?_plain (dynamic : IsDynamic scope) (noRoot : name.toList.head? ≠ some '@') :
    scope.fixed? name = none := by
  cases outcome : scope.fixed? name with
  | none => rfl
  | some found =>
      obtain ⟨layer, member, hit⟩ := List.exists_of_findSome?_eq_some outcome
      have here := dynamic layer member
      cases layer with
      | root bindings =>
          obtain ⟨before, rest, rfl, -⟩ := List.lookup_eq_some_iff.mp hit
          exact absurd (here (name, found) (by simp)) noRoot
      | _ => simp at hit

theorem find?_declared_plain (dynamic : IsDynamic scope) (noRoot : name.toList.head? ≠ some '@')
    (noLoop : name.toList.head? ≠ some '-') : find? schema name .declared scope = .ok none := by
  induction scope with
  | nil => rfl
  | cons layer outer ih =>
      obtain ⟨here, further⟩ := List.forall_mem_cons.mp dynamic
      cases layer with
      | root bindings => rfl
      | value found =>
          simp only [LayerIsDynamic] at here
          simp [find?, here, Shape.isOpenEnded, Shape.isDynamic, ih further]
      | iteration index => simp [find?, loopName?_plain index noRoot noLoop, ih further]
      | guard found => cases here
      | inverted => exact ih further

theorem find?_all_plain {found : ShapedExpr} (dynamic : IsDynamic scope)
    (noRoot : name.toList.head? ≠ some '@') (noLoop : name.toList.head? ≠ some '-')
    (search : find? schema name .all scope = .ok (some found)) :
    ∃ current, scope.current? = some current ∧
      found = ⟨.nodeSearch current.expr name, .dynamic⟩ := by
  induction scope with
  | nil => simp [find?] at search
  | cons layer outer ih =>
      obtain ⟨here, further⟩ := List.forall_mem_cons.mp dynamic
      cases layer with
      | root bindings => simp [find?] at search
      | value base =>
          simp only [LayerIsDynamic] at here
          simp only [find?, here, Shape.isOpenEnded, Shape.isDynamic, Bool.or_true, if_true,
            find?_declared_plain further noRoot noLoop, ok_bind, reduceCtorEq, if_false,
            pure_eq_ok, Except.ok.injEq, Option.some.injEq] at search
          exact ⟨base, rfl, search.symm⟩
      | iteration index =>
          simp only [find?, loopName?_plain index noRoot noLoop] at search
          exact ih further search
      | guard found => cases here
      | inverted => exact ih further search

theorem meaning_of_refers {found : ShapedExpr}
    (value : purpose ≠ .inclusion ∧ purpose ≠ .parent ∧ purpose ≠ .block)
    (refers : Refers schema scope name purpose found) :
    meaning schema scope name purpose names = useValue schema scope name purpose names found := by
  unfold meaning
  rw [if_neg (by simp [value])]
  rcases refers with ⟨dot, current⟩ | ⟨plain, search⟩
  · rw [if_pos dot, current]
  · rw [if_neg plain, search, ok_bind]

inductive Grown : Scope → Prop where
  | root : Grown (root .dynamic)
  | element (expr : Expr) (index : String) {scope : Scope} : Grown scope →
      Grown (.value ⟨expr, .dynamic⟩ :: .iteration index :: scope)
  | inverted {scope : Scope} : Grown scope → Grown (.inverted :: scope)

def IsSimple (name : String) : Prop :=
  name = "." ∨ '.' ∉ name.toList ∧ name.toList.head? ≠ some '@' ∧ name.toList.head? ≠ some '-'

instance : DecidablePred IsSimple := fun _ => inferInstanceAs (Decidable (_ ∨ _))

namespace Grown

theorem isDynamic (grown : Grown scope) : IsDynamic scope := by
  induction grown with
  | root => exact isDynamic_root
  | element expr index _ ih =>
      exact List.forall_mem_cons.mpr ⟨rfl, List.forall_mem_cons.mpr ⟨trivial, ih⟩⟩
  | inverted _ ih => exact List.forall_mem_cons.mpr ⟨trivial, ih⟩

theorem exists_current (grown : Grown scope) :
    ∃ expr, scope.current? = some ⟨expr, .dynamic⟩ := by
  induction grown with
  | root => exact ⟨_, rfl⟩
  | element expr index _ _ => exact ⟨expr, rfl⟩
  | inverted _ ih => exact ih

theorem exists_find? (schema : Schema) (grown : Grown scope)
    (noRoot : name.toList.head? ≠ some '@')
    (noLoop : name.toList.head? ≠ some '-') :
    ∃ expr, find? schema name .all scope = .ok (some ⟨expr, .dynamic⟩) := by
  have inner (expr : Expr) {outer : Scope} (dynamic : IsDynamic outer) :
      find? schema name .all (.value ⟨expr, .dynamic⟩ :: outer) =
        .ok (some ⟨.nodeSearch expr name, .dynamic⟩) := by
    simp [find?, Shape.isOpenEnded, Shape.isDynamic, find?_declared_plain dynamic noRoot noLoop]
  induction grown with
  | root => exact ⟨_, inner _ (List.forall_mem_cons.mp isDynamic_root).2⟩
  | element expr index grown _ =>
      exact ⟨_, inner expr (List.forall_mem_cons.mpr ⟨trivial, grown.isDynamic⟩)⟩
  | inverted _ ih => exact ih

theorem exists_refers (grown : Grown scope) (noLambdas : schema.lambdas = [])
    (simple : IsSimple name) (filled : name ≠ "") (purpose : NameUse) :
    ∃ expr, Refers schema scope name purpose ⟨expr, .dynamic⟩ := by
  obtain rfl | ⟨single, noRoot, noLoop⟩ := simple
  · obtain ⟨expr, current⟩ := grown.exists_current
    exact ⟨expr, .inl ⟨rfl, current⟩⟩
  · obtain ⟨expr, found⟩ := grown.exists_find? schema noRoot noLoop
    refine ⟨expr, .inr ⟨?_, ?_⟩⟩
    · rintro rfl
      exact single (by simp)
    · have start : lookupFirst schema scope name name false purpose =
          .ok (.inl ⟨expr, .dynamic⟩) := by
        simp [lookupFirst, fixed?_plain grown.isDynamic noRoot,
          find?_declared_plain grown.isDynamic noRoot noLoop, noLambdas, found, Table.get?]
      rw [lookup_cons (segments_eq_singleton single)]
      simp [filled, start, descend]

theorem exists_variable (grown : Grown scope) (noLambdas : schema.lambdas = [])
    (simple : IsSimple name) (filled : name ≠ "")
    (written : purpose = .escaped ∨ purpose = .unescaped) (names : FreshNames) :
    ∃ found, meaning schema scope name purpose names = .ok (.value found, names) := by
  obtain ⟨expr, refers⟩ := grown.exists_refers noLambdas simple filled purpose
  refine ⟨⟨expr, .dynamic⟩, ?_⟩
  rcases written with rfl | rfl
  · rw [meaning_of_refers (by simp) refers]
    rfl
  · rw [meaning_of_refers (by simp) refers]
    rfl

theorem exists_openSection (grown : Grown scope) (noLambdas : schema.lambdas = [])
    (simple : IsSimple name) (filled : name ≠ "") (names : FreshNames) :
    ∃ guards inside after, meaning schema scope name .openSection names =
      .ok (.openSection guards inside, after) ∧ Grown inside := by
  obtain ⟨expr, refers⟩ := grown.exists_refers noLambdas simple filled .openSection
  rw [meaning_of_refers (by simp) refers]
  exact ⟨_, _, _, rfl, grown.element _ _⟩

theorem exists_openInverted (grown : Grown scope) (noLambdas : schema.lambdas = [])
    (simple : IsSimple name) (filled : name ≠ "") (names : FreshNames) :
    ∃ guard after, meaning schema scope name .openInverted names =
      .ok (.openInverted guard (.inverted :: scope), after) := by
  obtain ⟨expr, refers⟩ := grown.exists_refers noLambdas simple filled .openInverted
  rw [meaning_of_refers (by simp) refers]
  exact ⟨_, _, rfl⟩

end Grown

end Scope

end Stencil
