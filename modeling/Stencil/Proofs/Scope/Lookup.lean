import Stencil.Proofs.Results
import Stencil.Proofs.Text.Splitting
import Stencil.Scope.Meaning

/-!
What names refer to: what the outcome of a look-up tells about the layers it was made in. Main
statement: a property of values that parts inherit holds of whatever a name refers to when it holds
of all layers.
-/

namespace Stencil

namespace Scope

variable {schema : Schema} {scope : Scope} {name : String} {names after : FreshNames}

def segments (name : String) : List String :=
  (Text.splitOn '.' name.toList).map String.ofList

theorem eq_of_segments_eq_singleton {first : String} (single : segments name = [first]) :
    first = name := by
  obtain ⟨piece, pieces, rfl⟩ := List.map_eq_singleton_iff.mp single
  rw [Text.eq_of_splitOn_eq_singleton pieces, String.ofList_toList]

theorem segments_eq_singleton (plain : '.' ∉ name.toList) : segments name = [name] := by
  rw [segments, Text.splitOn_eq_singleton plain, List.map_singleton, String.ofList_toList]

/-- The value that a name refers to. -/
def Refers (schema : Schema) (scope : Scope) (name : String) (purpose : NameUse)
    (found : ShapedExpr) : Prop :=
  (name = "." ∧ scope.current? = some found) ∨
    (name ≠ "." ∧ lookup schema scope name purpose = .ok (.inl found))

theorem find?_value {found : ShapedExpr} {reach : Reach} {outer : Scope}
    (plain : found.shape.isOpenEnded = false) :
    find? schema name reach (.value found :: outer) = (do
      match ← child? schema found name with
      | some hit => return some hit
      | none => find? schema name reach outer) := by
  rw [find?, plain]
  rfl

theorem find?_declared_mapping {found : ShapedExpr} {outer : Scope}
    (mapping : found.shape.isMapping = true) :
    find? schema name .declared (.value found :: outer) = find? schema name .declared outer := by
  simp only [find?, Shape.isOpenEnded, mapping, Bool.true_or, if_true]
  cases find? schema name .declared outer with
  | error problem => rfl
  | ok hit => cases hit <;> rfl

theorem find?_all_mapping {expr : Expr} {element : Shape} {outer : Scope}
    (none : find? schema name .declared outer = .ok none) :
    find? schema name .all (.value ⟨expr, .mapping element⟩ :: outer) =
      .ok (some ⟨.key expr name, element⟩) := by
  simp [find?, none, Shape.isOpenEnded, Shape.isMapping, Shape.isDynamic, child?]

theorem lookupFirst_value {first : String} {dotted : Bool} {purpose : NameUse}
    {found : ShapedExpr}
    (done : lookupFirst schema scope name first dotted purpose = .ok (.inl found)) :
    scope.fixed? first = some found ∨
      scope.fixed? first = none ∧
        (find? schema first .declared scope = .ok (some found) ∨
          find? schema first .declared scope = .ok none ∧
            find? schema first .all scope = .ok (some found)) := by
  unfold lookupFirst at done
  split at done
  · next fixed =>
      simp only [pure_eq_ok, Except.ok.injEq, Sum.inl.injEq] at done
      exact .inl (done ▸ fixed)
  · next fixed =>
      refine .inr ⟨fixed, ?_⟩
      obtain ⟨declared, search, done⟩ := bind_eq_ok.mp done
      cases declared with
      | some hit =>
          simp only [pure_eq_ok, Except.ok.injEq, Sum.inl.injEq] at done
          exact .inl (done ▸ search)
      | none =>
          refine .inr ⟨search, ?_⟩
          simp only at done
          split at done
          · simp at done
          · simp at done
          · obtain ⟨any, searchAll, done⟩ := bind_eq_ok.mp done
            cases any with
            | none => simp at done
            | some hit =>
                simp only [pure_eq_ok, Except.ok.injEq, Sum.inl.injEq] at done
                exact done ▸ searchAll

theorem lookupFirst_lambda {first : String} {dotted : Bool} {purpose : NameUse}
    {decl : LambdaDecl}
    (done : lookupFirst schema scope name first dotted purpose = .ok (.inr decl)) :
    purpose = .openSection ∧ dotted = false ∧ schema.lambdas.get? first = some decl := by
  unfold lookupFirst at done
  split at done
  · simp at done
  · obtain ⟨declared, search, done⟩ := bind_eq_ok.mp done
    cases declared with
    | some hit => simp at done
    | none =>
        simp only at done
        split at done
        · next lambda? _ given _ =>
            simp only [pure_eq_ok, Except.ok.injEq, Sum.inr.injEq] at done
            subst done
            cases dotted with
            | true => simp at given
            | false => exact ⟨rfl, rfl, by simpa using given⟩
        · simp at done
        · obtain ⟨any, searchAll, done⟩ := bind_eq_ok.mp done
          cases any <;> simp at done

theorem lookup_nil {purpose : NameUse} (pieces : segments name = []) :
    lookup schema scope name purpose = .error (scope.notFound name) := by
  have parts : (Text.splitOn '.' name.toList).map String.ofList = [] := pieces
  rw [lookup, parts]
  rfl

theorem lookup_cons {first : String} {rest : List String} {purpose : NameUse}
    (pieces : segments name = first :: rest) :
    lookup schema scope name purpose =
      if (first :: rest).any String.isEmpty then .error (scope.notFound name)
      else do
        match ← lookupFirst schema scope name first (!rest.isEmpty) purpose with
        | .inl found => return .inl (← descend schema scope name found rest)
        | .inr lambda => return .inr lambda := by
  have parts : (Text.splitOn '.' name.toList).map String.ofList = first :: rest := pieces
  rw [lookup, parts]
  dsimp only
  split <;> rfl

theorem lookup_value {purpose : NameUse} {found : ShapedExpr}
    (done : lookup schema scope name purpose = .ok (.inl found)) :
    ∃ first rest base, segments name = first :: rest ∧ (first :: rest).any String.isEmpty = false ∧
      lookupFirst schema scope name first (!rest.isEmpty) purpose = .ok (.inl base) ∧
      descend schema scope name base rest = .ok found := by
  cases pieces : segments name with
  | nil =>
      rw [lookup_nil pieces] at done
      cases done
  | cons first rest =>
      rw [lookup_cons pieces] at done
      split at done
      · cases done
      · next filled =>
          obtain ⟨result, start, done⟩ := bind_eq_ok.mp done
          cases result with
          | inr decl => simp at done
          | inl base =>
              obtain ⟨value, follow, done⟩ := bind_eq_ok.mp done
              simp only [pure_eq_ok, Except.ok.injEq, Sum.inl.injEq] at done
              exact ⟨first, rest, base, rfl, eq_false_of_ne_true filled, start, done ▸ follow⟩

theorem lookup_lambda {purpose : NameUse} {decl : LambdaDecl}
    (done : lookup schema scope name purpose = .ok (.inr decl)) :
    purpose = .openSection ∧ schema.lambdas.get? name = some decl := by
  cases pieces : segments name with
  | nil =>
      rw [lookup_nil pieces] at done
      cases done
  | cons first rest =>
      rw [lookup_cons pieces] at done
      split at done
      · cases done
      · obtain ⟨result, start, done⟩ := bind_eq_ok.mp done
        cases result with
        | inl base =>
            obtain ⟨value, follow, done⟩ := bind_eq_ok.mp done
            simp at done
        | inr other =>
            simp only [pure_eq_ok, Except.ok.injEq, Sum.inr.injEq] at done
            subst done
            obtain ⟨section?, plain, declared⟩ := lookupFirst_lambda start
            cases rest with
            | cons next more => simp at plain
            | nil => exact ⟨section?, eq_of_segments_eq_singleton pieces ▸ declared⟩

theorem refers_unique {purpose other : NameUse} {found again : ShapedExpr}
    (refers : Refers schema scope name purpose found)
    (refersAgain : Refers schema scope name other again) : found = again := by
  rcases refers with ⟨dot, current⟩ | ⟨plain, done⟩
  · rcases refersAgain with ⟨-, same⟩ | ⟨plain, -⟩
    · rw [current] at same
      exact Option.some.inj same
    · exact absurd dot plain
  · rcases refersAgain with ⟨dot, -⟩ | ⟨-, doneAgain⟩
    · exact absurd dot plain
    · obtain ⟨first, rest, base, pieces, -, start, follow⟩ := lookup_value done
      obtain ⟨second, more, origin, same, -, startAgain, followAgain⟩ := lookup_value doneAgain
      obtain ⟨rfl, rfl⟩ : first = second ∧ rest = more := by simpa [pieces] using same
      have origins : base = origin := by
        rcases lookupFirst_value start with fixed | ⟨none, declared | ⟨silent, search⟩⟩ <;>
          rcases lookupFirst_value startAgain with
            fixed' | ⟨none', declared' | ⟨silent', search'⟩⟩ <;> simp_all
      rw [origins, followAgain] at follow
      exact (Except.ok.inj follow).symm

theorem meaning_cases {purpose : NameUse} {result : Meaning}
    (value : purpose ≠ .inclusion ∧ purpose ≠ .parent ∧ purpose ≠ .block)
    (done : meaning schema scope name purpose names = .ok (result, after)) :
    (∃ found, Refers schema scope name purpose found ∧
      useValue schema scope name purpose names found = .ok (result, after)) ∨
    (∃ decl, purpose = .openSection ∧ schema.lambdas.get? name = some decl ∧
      result = .lambda decl ∧ after = names) := by
  unfold meaning at done
  rw [if_neg (by simp [value])] at done
  split at done
  · next dot =>
      split at done
      · next found current => exact .inl ⟨found, .inl ⟨dot, current⟩, done⟩
      · simp at done
  · next plain =>
      obtain ⟨target, search, done⟩ := bind_eq_ok.mp done
      cases target with
      | inl found => exact .inl ⟨found, .inr ⟨plain, search⟩, done⟩
      | inr decl =>
          simp only [pure_eq_ok, Except.ok.injEq, Prod.mk.injEq] at done
          obtain ⟨section?, declared⟩ := lookup_lambda search
          exact .inr ⟨decl, section?, declared, done.1.symm, done.2.symm⟩

theorem meaning_variable {purpose : NameUse} {result : Meaning}
    (written : purpose = .escaped ∨ purpose = .unescaped)
    (done : meaning schema scope name purpose names = .ok (result, after)) :
    ∃ found, Refers schema scope name purpose found ∧ found.shape.isWritable = true ∧
      result = .value found ∧ after = names := by
  rcases meaning_cases (by rcases written with rfl | rfl <;> simp) done with
    ⟨found, refers, used⟩ | ⟨decl, section?, -⟩
  · have writable : found.shape.isWritable = true ∧ result = .value found ∧ after = names := by
      rcases written with rfl | rfl
      all_goals
        simp only [useValue] at used
        split at used
        · next writable =>
            simp only [pure_eq_ok, Except.ok.injEq, Prod.mk.injEq] at used
            exact ⟨writable, used.1.symm, used.2.symm⟩
        · simp at used
    exact ⟨found, refers, writable⟩
  · rcases written with rfl | rfl <;> simp at section?

theorem meaning_openSection {result : Meaning}
    (done : meaning schema scope name .openSection names = .ok (result, after)) :
    (∃ found guards inside, Refers schema scope name .openSection found ∧
      sectionOver schema scope found.expr names found.shape = .ok (guards, inside, after) ∧
      result = .openSection guards inside) ∨
    (∃ decl, schema.lambdas.get? name = some decl ∧ result = .lambda decl ∧ after = names) := by
  rcases meaning_cases (by simp) done with ⟨found, refers, used⟩ | ⟨decl, -, declared, rest⟩
  · unfold useValue at used
    obtain ⟨⟨guards, inside, later⟩, opened, used⟩ := bind_eq_ok.mp used
    simp only [pure_eq_ok, Except.ok.injEq, Prod.mk.injEq] at used
    obtain ⟨rfl, rfl⟩ := used
    exact .inl ⟨found, guards, inside, refers, opened, rfl⟩
  · exact .inr ⟨decl, declared, rest⟩

theorem meaning_lambda {decl : LambdaDecl}
    (done : meaning schema scope name .openSection names = .ok (.lambda decl, after)) :
    schema.lambdas.get? name = some decl := by
  rcases meaning_openSection done with ⟨found, guards, inside, -, -, same⟩ | ⟨found, given, same, -⟩
  · cases same
  · cases same
    exact given

theorem meaning_openInverted {result : Meaning}
    (done : meaning schema scope name .openInverted names = .ok (result, after)) :
    ∃ found guard, Refers schema scope name .openInverted found ∧
      guardOver found.expr names found.shape = (guard, after) ∧
      result = .openInverted guard (.inverted :: scope) := by
  rcases meaning_cases (by simp) done with ⟨found, refers, used⟩ | ⟨decl, section?, -⟩
  · unfold useValue at used
    simp only [pure_eq_ok, Except.ok.injEq, Prod.mk.injEq] at used
    exact ⟨found, _, refers, Prod.ext rfl used.2, used.1.symm⟩
  · simp at section?

structure Hereditary (schema : Schema) (P : ShapedExpr → Prop) : Prop where
  child : ∀ {found part : ShapedExpr} {name : String}, P found →
    child? schema found name = .ok (some part) → P part
  search : ∀ {found : ShapedExpr} (name : String), P found → found.shape.isDynamic = true →
    P ⟨.nodeSearch found.expr name, .dynamic⟩

def LayerHolds (P : ShapedExpr → Prop) : Layer → Prop
  | .root bindings => ∀ binding ∈ bindings, P binding.2
  | .value found | .guard found => P found
  | .iteration index => ∀ name hit, loopName? index name = some hit → P hit
  | .inverted => True

def Holds (P : ShapedExpr → Prop) (scope : Scope) : Prop := ∀ layer ∈ scope, LayerHolds P layer

variable {P : ShapedExpr → Prop}

theorem holds_cons {layer : Layer} :
    Holds P (layer :: scope) ↔ LayerHolds P layer ∧ Holds P scope :=
  List.forall_mem_cons

theorem Holds.imp {Q : ShapedExpr → Prop} (holds : Holds P scope)
    (weaker : ∀ found, P found → Q found) : Holds Q scope := by
  intro layer member
  have here := holds layer member
  cases layer with
  | root bindings => exact fun binding inside => weaker _ (here binding inside)
  | value found | guard found => exact weaker _ here
  | iteration index => exact fun name hit looped => weaker _ (here name hit looped)
  | inverted => trivial

theorem holds_current {found : ShapedExpr} (holds : Holds P scope)
    (current : scope.current? = some found) : P found := by
  obtain ⟨layer, member, hit⟩ := List.exists_of_findSome?_eq_some current
  have layerHolds := holds layer member
  cases layer <;> simp_all [LayerHolds]

theorem holds_fixed {found : ShapedExpr} (holds : Holds P scope)
    (fixed : scope.fixed? name = some found) : P found := by
  obtain ⟨layer, member, hit⟩ := List.exists_of_findSome?_eq_some fixed
  have layerHolds := holds layer member
  cases layer with
  | root bindings =>
      obtain ⟨before, rest, rfl, -⟩ := List.lookup_eq_some_iff.mp hit
      exact layerHolds (name, found) (by simp)
  | _ => simp at hit

theorem holds_find {found : ShapedExpr} (hereditary : Hereditary schema P) {reach : Reach}
    (holds : Holds P scope) (search : find? schema name reach scope = .ok (some found)) :
    P found := by
  induction scope generalizing reach with
  | nil => simp [find?] at search
  | cons layer outer ih =>
      obtain ⟨here, further⟩ := holds_cons.mp holds
      cases layer with
      | root bindings => simp [find?] at search
      | guard _ => exact ih further (by simpa only [find?] using search)
      | inverted => exact ih further (by simpa only [find?] using search)
      | iteration index =>
          simp only [find?] at search
          split at search
          · next hit looped =>
              simp only [Except.ok.injEq, Option.some.injEq] at search
              exact search ▸ here name hit looped
          · exact ih further search
      | value base =>
          simp only [find?] at search
          split at search
          · obtain ⟨declared, outwards, search⟩ := bind_eq_ok.mp search
            cases declared with
            | some hit =>
                simp only [pure_eq_ok, Except.ok.injEq, Option.some.injEq] at search
                subst search
                exact ih further outwards
            | none =>
                simp only at search
                split at search
                · simp at search
                · split at search
                  · next dynamic =>
                      simp only [pure_eq_ok, Except.ok.injEq, Option.some.injEq] at search
                      exact search ▸ hereditary.search name here dynamic
                  · exact hereditary.child here search
          · obtain ⟨direct, inside, search⟩ := bind_eq_ok.mp search
            cases direct with
            | some hit =>
                simp only [pure_eq_ok, Except.ok.injEq, Option.some.injEq] at search
                exact search ▸ hereditary.child here inside
            | none => exact ih further search

theorem holds_descend {base found : ShapedExpr} {rest : List String}
    (hereditary : Hereditary schema P) (start : P base)
    (follow : descend schema scope name base rest = .ok found) : P found := by
  induction rest generalizing base with
  | nil =>
      simp only [descend, Except.ok.injEq] at follow
      exact follow ▸ start
  | cons segment rest ih =>
      simp only [descend] at follow
      split at follow
      · obtain ⟨part?, step, follow⟩ := bind_eq_ok.mp follow
        cases part? with
        | none => simp at follow
        | some part => exact ih (hereditary.child start step) follow
      · simp at follow

theorem holds_refers {purpose : NameUse} {found : ShapedExpr} (hereditary : Hereditary schema P)
    (holds : Holds P scope) (refers : Refers schema scope name purpose found) : P found := by
  rcases refers with ⟨-, current⟩ | ⟨-, done⟩
  · exact holds_current holds current
  · obtain ⟨first, rest, base, -, -, start, follow⟩ := lookup_value done
    refine holds_descend hereditary ?_ follow
    rcases lookupFirst_value start with fixed | ⟨-, declared | ⟨-, search⟩⟩
    · exact holds_fixed holds fixed
    · exact holds_find hereditary holds declared
    · exact holds_find hereditary holds search

end Scope

end Stencil
