import Stencil.Proofs.Results
import Stencil.Scope.Meaning

/-!
Names that are not found. Main statement: when the name of a tag is not found the error has the
whole name, and all layers around the tag from the innermost outwards.
-/

namespace Stencil.Scope

variable {schema : Schema} {scope : Scope} {name first : String} {names : FreshNames}
  {found : ShapedExpr} {purpose : NameUse} {error : NameError}

def Blames (scope : Scope) (name : String) (error : NameError) : Prop :=
  ∀ other scopes, error = .notFound other scopes → error = scope.notFound name

theorem blames_shape (scope : Scope) (name message : String) :
    Blames scope name (.shape message) := by
  rintro _ _ ⟨⟩

theorem blames_notFound (scope : Scope) (name : String) : Blames scope name (scope.notFound name) :=
  fun _ _ _ => rfl

theorem structDecl_blames {structName : String}
    (failed : structDecl schema structName = .error error) : Blames scope name error := by
  unfold structDecl at failed
  split at failed
  · cases failed
  · cases failed
    exact blames_shape _ _ _

theorem child?_blames {part : String} (failed : child? schema found part = .error error) :
    Blames scope name error := by
  unfold child? at failed
  split at failed
  · rcases bind_eq_error.mp failed with failed | ⟨decl, -, done⟩
    · exact structDecl_blames failed
    · cases done
  · split at failed
    · cases failed
      exact blames_shape _ _ _
    · cases failed
  all_goals cases failed

theorem find?_blames {reach : Reach} {around : Scope}
    (failed : find? schema first reach around = .error error) : Blames scope name error := by
  induction around generalizing reach with
  | nil => cases failed
  | cons layer outer ih =>
      cases layer with
      | root bindings => cases failed
      | value found =>
          rw [find?] at failed
          split at failed
          · rcases bind_eq_error.mp failed with failed | ⟨hit, -, failed⟩
            · exact ih failed
            · repeat' split at failed
              all_goals first
                | exact child?_blames failed
                | cases failed
          · rcases bind_eq_error.mp failed with failed | ⟨hit, -, failed⟩
            · exact child?_blames failed
            · split at failed
              · cases failed
              · exact ih failed
      | iteration index =>
          rw [find?] at failed
          split at failed
          · cases failed
          · exact ih failed
      | guard found | inverted =>
          rw [find?] at failed
          exact ih failed

theorem sectionOver_blames {around : Scope} {expr : Expr} {shape : Shape}
    (failed : sectionOver schema around expr names shape = .error error) :
    Blames scope name error := by
  induction shape with
  | optional inner ih =>
      rcases bind_eq_error.mp failed with failed | ⟨result, -, done⟩
      · exact ih failed
      · cases done
  | struct structName =>
      rcases bind_eq_error.mp failed with failed | ⟨decl, -, done⟩
      · exact structDecl_blames failed
      · cases done
  | bool | sequence _ | dynamic | text | number | mapping _ | enum _ => cases failed

theorem lookupFirst_blames {dotted : Bool}
    (failed : lookupFirst schema scope name first dotted purpose = .error error) :
    Blames scope name error := by
  unfold lookupFirst at failed
  split at failed
  · cases failed
  · rcases bind_eq_error.mp failed with failed | ⟨hit, -, failed⟩
    · exact find?_blames failed
    · split at failed
      · cases failed
      · dsimp only at failed
        generalize (if dotted = true then none else schema.lambdas.get? first) = lambda? at failed
        split at failed
        · cases failed
        · cases failed
          exact blames_shape _ _ _
        · rcases bind_eq_error.mp failed with failed | ⟨hit, -, failed⟩
          · exact find?_blames failed
          · split at failed
            · cases failed
            · cases failed
              exact blames_notFound scope name

theorem descend_blames {segments : List String}
    (failed : descend schema scope name found segments = .error error) :
    Blames scope name error := by
  induction segments generalizing found with
  | nil => cases failed
  | cons segment rest ih =>
      rw [descend] at failed
      split at failed
      · rcases bind_eq_error.mp failed with failed | ⟨hit, -, failed⟩
        · exact child?_blames failed
        · split at failed
          · exact ih failed
          · cases failed
            exact blames_notFound scope name
      · cases failed
        exact blames_shape _ _ _

theorem lookup_blames (failed : lookup schema scope name purpose = .error error) :
    Blames scope name error := by
  unfold lookup at failed
  dsimp only at failed
  split at failed
  · cases failed
    exact blames_notFound scope name
  · split at failed
    · cases failed
      exact blames_notFound scope name
    · rcases bind_eq_error.mp failed with failed | ⟨hit, -, failed⟩
      · exact lookupFirst_blames failed
      · split at failed
        · rcases bind_eq_error.mp failed with failed | ⟨part, -, done⟩
          · exact descend_blames failed
          · cases done
        · cases failed

theorem useValue_blames (failed : useValue schema scope name purpose names found = .error error) :
    Blames scope name error := by
  unfold useValue at failed
  split at failed
  · split at failed
    · cases failed
    · cases failed
      exact blames_shape _ _ _
  · split at failed
    · cases failed
    · cases failed
      exact blames_shape _ _ _
  · rcases bind_eq_error.mp failed with failed | ⟨result, -, done⟩
    · exact sectionOver_blames failed
    · cases done
  all_goals cases failed

theorem meaning_notFound {other : String} {scopes : List String}
    (failed : meaning schema scope name purpose names = .error (.notFound other scopes)) :
    other = name ∧ scopes = scope.describe := by
  have blames : Blames scope name (.notFound other scopes) := by
    unfold meaning at failed
    split at failed
    · cases failed
    · split at failed
      · split at failed
        · exact useValue_blames failed
        · cases failed
          exact blames_notFound scope name
      · rcases bind_eq_error.mp failed with failed | ⟨hit, -, failed⟩
        · exact lookup_blames failed
        · split at failed
          · exact useValue_blames failed
          · cases failed
  cases blames other scopes rfl
  exact ⟨rfl, rfl⟩

end Stencil.Scope
