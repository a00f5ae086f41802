import Stencil.Proofs.Scope.Lookup
import Stencil.Proofs.Scope.Sections

/-!
Renaming variables. Main statement: where the variables in scope are renamed, a name means what it
meant before, under the new names.
-/

namespace Stencil

/-- New names for variables, no two of which fall together. The root variables keep theirs. -/
structure Renaming where
  apply : String → String
  injective : Function.Injective apply
  root : ∀ name ∈ FreshNames.rootNames, apply name = name

namespace FreshNames

def bases : List String := ["element", "index", "model"]

def stem (name : String) : String :=
  String.ofList (name.toList.reverse.dropWhile Char.isDigit).reverse

def number (name : String) : Nat :=
  Nat.ofDigitChars 10 (name.toList.reverse.takeWhile Char.isDigit).reverse 0

def shift (offset : String → Nat) (name : String) : String :=
  if name = numbered (stem name) (number name) then
    numbered (stem name) (number name + offset (stem name))
  else name

variable {base : String} {offset : String → Nat}

theorem plainBase_stem (name : String) : PlainBase (stem name) := by
  rw [PlainBase, stem, String.toList_ofList, List.getLast?_reverse]
  have stops := List.head?_dropWhile_not Char.isDigit name.toList.reverse
  cases behind : (name.toList.reverse.dropWhile Char.isDigit).head? with
  | none => rfl
  | some last => simpa [behind] using stops

theorem stem_numbered (plain : PlainBase base) (used : Nat) : stem (numbered base used) = base := by
  have whole : (numbered base used).toList.reverse =
      (suffix used).reverse ++ base.toList.reverse := by
    rw [toList_numbered, List.reverse_append]
  have parts := List.takeWhile_append_dropWhile (p := Char.isDigit)
    (l := (numbered base used).toList.reverse)
  rw [takeWhile_reverse_numbered plain] at parts
  have behind := List.append_cancel_left (parts.trans whole)
  rw [stem, behind, List.reverse_reverse, String.ofList_toList]

theorem number_numbered (plain : PlainBase base) (used : Nat) :
    number (numbered base used) = used := by
  rw [number, takeWhile_reverse_numbered plain, List.reverse_reverse, ofDigitChars_suffix]

theorem shift_numbered (plain : PlainBase base) (used : Nat) :
    shift offset (numbered base used) = numbered base (used + offset base) := by
  rw [shift, stem_numbered plain, number_numbered plain, if_pos rfl]

theorem shift_cases (offset : String → Nat) (name : String) :
    (∃ base used, PlainBase base ∧ name = numbered base used ∧
      shift offset name = numbered base (used + offset base)) ∨
    ((∀ base used, PlainBase base → name ≠ numbered base used) ∧ shift offset name = name) := by
  by_cases shifted : name = numbered (stem name) (number name)
  · exact .inl ⟨stem name, number name, plainBase_stem name, shifted, if_pos shifted⟩
  · refine .inr ⟨?_, if_neg shifted⟩
    rintro base used plain rfl
    rw [stem_numbered plain, number_numbered plain] at shifted
    exact shifted rfl

theorem shift_injective (offset : String → Nat) : Function.Injective (shift offset) := by
  intro name other same
  obtain ⟨base, used, plain, rfl, shifted⟩ | ⟨apart, kept⟩ := shift_cases offset name
  · obtain ⟨second, count, plainOther, rfl, otherShifted⟩ | ⟨otherApart, otherKept⟩ :=
      shift_cases offset other
    · rw [shifted, otherShifted] at same
      obtain ⟨rfl, numbers⟩ := numbered_injective plain plainOther same
      rw [Nat.add_right_cancel numbers]
    · rw [shifted, otherKept] at same
      exact absurd same.symm (otherApart _ _ plain)
  · obtain ⟨second, count, plainOther, rfl, otherShifted⟩ | ⟨otherApart, otherKept⟩ :=
      shift_cases offset other
    · rw [kept, otherShifted] at same
      exact absurd same (apart _ _ plainOther)
    · rwa [kept, otherKept] at same

end FreshNames

namespace Renaming

def shift (offset : String → Nat) (root : ∀ name ∈ FreshNames.rootNames, offset name = 0) :
    Renaming where
  apply := FreshNames.shift offset
  injective := FreshNames.shift_injective offset
  root := by
    intro name member
    have plain : FreshNames.PlainBase name := by
      simp only [FreshNames.rootNames, List.mem_cons, List.not_mem_nil, or_false] at member
      rcases member with rfl | rfl | rfl <;> rfl
    have shifted : FreshNames.shift offset name = FreshNames.numbered name (0 + offset name) :=
      FreshNames.shift_numbered plain 0
    rwa [root name member] at shifted

def refl : Renaming := ⟨fun name => name, fun _ _ same => same, fun _ _ => rfl⟩

@[simp] theorem refl_apply (name : String) : refl.apply name = name := rfl

def Follows (ρ : Renaming) (names other : FreshNames) : Prop :=
  ∀ base ∈ FreshNames.bases, ∀ used, ρ.apply (FreshNames.numbered base (names.count base + used)) =
    FreshNames.numbered base (other.count base + used)

variable {ρ : Renaming} {names other after : FreshNames}

theorem Follows.refl (names : FreshNames) : Renaming.refl.Follows names names :=
  fun _ _ _ => rfl

theorem Follows.fresh {base : String} (follows : ρ.Follows names other)
    (known : base ∈ FreshNames.bases) :
    ρ.apply (names.fresh base).1 = (other.fresh base).1 ∧
      ρ.Follows (names.fresh base).2 (other.fresh base).2 := by
  refine ⟨follows base known 0, ?_⟩
  intro second member used
  by_cases same : second = base
  · subst same
    rw [FreshNames.count_fresh_self, FreshNames.count_fresh_self, Nat.add_assoc, Nat.add_assoc]
    exact follows second member (1 + used)
  · rw [FreshNames.count_fresh_of_ne _ same, FreshNames.count_fresh_of_ne _ same]
    exact follows second member used

theorem Follows.loop {element index : String} (follows : ρ.Follows names other)
    (loop : names.LoopNames element index after) :
    ∃ later, other.LoopNames (ρ.apply element) (ρ.apply index) later ∧ ρ.Follows after later := by
  obtain ⟨middle, first, second⟩ := loop
  obtain ⟨sameElement, between⟩ := follows.fresh (show "element" ∈ FreshNames.bases by decide)
  rw [first] at sameElement between
  obtain ⟨sameIndex, last⟩ := between.fresh (show "index" ∈ FreshNames.bases by decide)
  rw [second] at sameIndex last
  exact ⟨_, ⟨_, Prod.ext sameElement.symm rfl, Prod.ext sameIndex.symm rfl⟩, last⟩

def ahead (names : FreshNames) (name : String) : Nat :=
  if name ∈ FreshNames.bases then names.count name else 0

theorem ahead_root (names : FreshNames) : ∀ name ∈ FreshNames.rootNames, ahead names name = 0 := by
  simp [FreshNames.rootNames, FreshNames.bases, ahead]

theorem follows_root (names : FreshNames) :
    (shift (ahead names) (ahead_root names)).Follows .root names := by
  intro base member used
  obtain ⟨fresh, plain⟩ : FreshNames.root.count base = 0 ∧ FreshNames.PlainBase base := by
    simp only [FreshNames.bases, List.mem_cons, List.not_mem_nil, or_false] at member
    rcases member with rfl | rfl | rfl <;> exact ⟨rfl, rfl⟩
  have shifted : FreshNames.shift (ahead names) (FreshNames.numbered base used) =
      FreshNames.numbered base (used + ahead names base) := FreshNames.shift_numbered plain used
  rw [ahead, if_pos member] at shifted
  rw [fresh, Nat.zero_add, Nat.add_comm]
  exact shifted

end Renaming

def Expr.rename (ρ : Renaming) : Expr → Expr
  | var name => var (ρ.apply name)
  | field base name => field (base.rename ρ) name
  | key base name => key (base.rename ρ) name
  | nodeChild base name => nodeChild (base.rename ρ) name
  | nodeSearch base name => nodeSearch (base.rename ρ) name
  | first loop => first (ρ.apply loop)
  | last loop => last (ρ.apply loop)
  | index loop oneBased => index (ρ.apply loop) oneBased
  | is base variant => is (base.rename ρ) variant

def Guard.rename (ρ : Renaming) : Guard → Guard
  | truthy value => truthy (value.rename ρ)
  | present value => present (value.rename ρ)
  | each items element index => each (items.rename ρ) (ρ.apply element) (ρ.apply index)
  | eachNode node element index => eachNode (node.rename ρ) (ρ.apply element) (ρ.apply index)

def ShapedExpr.rename (ρ : Renaming) (found : ShapedExpr) : ShapedExpr :=
  ⟨found.expr.rename ρ, found.shape⟩

def Layer.rename (ρ : Renaming) : Layer → Layer
  | root bindings => root (bindings.map fun binding => (binding.1, binding.2.rename ρ))
  | value found => value (found.rename ρ)
  | iteration index => iteration (ρ.apply index)
  | guard found => guard (found.rename ρ)
  | inverted => inverted

def Scope.rename (ρ : Renaming) (scope : Scope) : Scope := scope.map (Layer.rename ρ)

def Meaning.rename (ρ : Renaming) : Meaning → Meaning
  | value found => value (found.rename ρ)
  | openSection guards scope => openSection (guards.map (Guard.rename ρ)) (scope.rename ρ)
  | openInverted guard scope => openInverted (guard.rename ρ) (scope.rename ρ)
  | lambda decl => lambda decl
  | enclosing scope => enclosing (scope.rename ρ)

theorem Expr.rename_refl (expr : Expr) : expr.rename .refl = expr := by
  induction expr with
  | var _ | first _ | last _ | index _ _ => rfl
  | field base name ih => exact congrArg (field · name) ih
  | key base name ih => exact congrArg (key · name) ih
  | nodeChild base name ih => exact congrArg (nodeChild · name) ih
  | nodeSearch base name ih => exact congrArg (nodeSearch · name) ih
  | is base variant ih => exact congrArg (is · variant) ih

theorem Guard.rename_refl (guard : Guard) : guard.rename .refl = guard := by
  cases guard <;> simp [rename, Expr.rename_refl]

theorem Expr.rename_injective (ρ : Renaming) : Function.Injective (Expr.rename ρ) := by
  intro expr
  induction expr with
  | var name | first name | last name | index name oneBased =>
      intro other same
      cases other <;> simp_all [rename, ρ.injective.eq_iff]
  | field base name ih | key base name ih | nodeChild base name ih | nodeSearch base name ih
  | is base name ih =>
      intro other same
      cases other with
      | field inner second | key inner second | nodeChild inner second | nodeSearch inner second
      | is inner second =>
          simp only [rename, reduceCtorEq, field.injEq, key.injEq, nodeChild.injEq,
            nodeSearch.injEq, is.injEq] at same
          try rw [ih same.1, same.2]
      | _ => cases same

namespace Scope

variable {ρ : Renaming} {schema : Schema} {scope inside : Scope} {name : String}
  {names other after : FreshNames} {found : ShapedExpr} {expr : Expr} {shape : Shape}

@[simp] theorem rename_cons (layer : Layer) (scope : Scope) :
    rename ρ (layer :: scope) = layer.rename ρ :: rename ρ scope := rfl

@[simp] theorem rename_root (shape : Shape) : (root shape).rename ρ = root shape := by
  have kept (name : String) (member : name ∈ FreshNames.rootNames) :
      (Expr.var name).rename ρ = .var name := congrArg Expr.var (ρ.root name member)
  simp only [root, rename, List.map_cons, List.map_nil, Layer.rename, ShapedExpr.rename,
    kept "data" (by decide), kept "context" (by decide), kept "template" (by decide)]

theorem current?_rename (scope : Scope) :
    (scope.rename ρ).current? = scope.current?.map (ShapedExpr.rename ρ) := by
  induction scope with
  | nil => rfl
  | cons layer outer ih =>
      cases layer with
      | value found | guard found => rfl
      | root bindings | iteration index | inverted => exact ih

theorem currentExpr_rename (scope : Scope) :
    ((scope.rename ρ).current?.map ShapedExpr.expr).getD (.var "data") =
      ((scope.current?.map ShapedExpr.expr).getD (.var "data")).rename ρ := by
  rw [current?_rename]
  cases scope.current? with
  | none => exact congrArg Expr.var (ρ.root "data" (by decide)).symm
  | some found => rfl

theorem fixed?_rename (scope : Scope) (name : String) :
    (scope.rename ρ).fixed? name = (scope.fixed? name).map (ShapedExpr.rename ρ) := by
  have bound (bindings : List (String × ShapedExpr)) :
      (bindings.map fun binding => (binding.1, binding.2.rename ρ)).lookup name =
        (bindings.lookup name).map (ShapedExpr.rename ρ) := by
    induction bindings with
    | nil => rfl
    | cons binding bindings ih =>
        rw [List.map_cons, List.lookup_cons, List.lookup_cons, ih]
        cases name == binding.1 <;> rfl
  induction scope with
  | nil => rfl
  | cons layer outer ih =>
      cases layer with
      | root bindings =>
          simp only [fixed?, rename_cons, Layer.rename, List.findSome?_cons, bound] at ih ⊢
          rw [ih]
          cases bindings.lookup name <;> rfl
      | value found | guard found | iteration index | inverted => exact ih

theorem loopName?_rename (index name : String) :
    loopName? (ρ.apply index) name = (loopName? index name).map (ShapedExpr.rename ρ) := by
  unfold loopName?
  repeat' split
  all_goals rfl

theorem child?_rename (found : ShapedExpr) (name : String) :
    child? schema (found.rename ρ) name =
      (child? schema found name).map (Option.map (ShapedExpr.rename ρ)) := by
  obtain ⟨expr, shape⟩ := found
  cases shape with
  | struct structName =>
      simp only [child?, ShapedExpr.rename]
      cases structDecl schema structName with
      | error problem => rfl
      | ok decl =>
          simp only [ok_bind, pure_eq_ok, Except.map]
          cases decl.fields.get? name <;> rfl
  | enum enumName =>
      simp only [child?, ShapedExpr.rename]
      cases schema.enum? enumName with
      | none => rfl
      | some decl =>
          dsimp only
          split <;> rfl
  | _ => rfl

theorem find?_rename (name : String) (reach : Reach) (scope : Scope) :
    find? schema name reach (scope.rename ρ) =
      (find? schema name reach scope).map (Option.map (ShapedExpr.rename ρ)) := by
  induction scope generalizing reach with
  | nil => rfl
  | cons layer outer ih =>
      cases layer with
      | root bindings => rfl
      | guard _ | inverted => exact ih reach
      | iteration index =>
          simp only [rename_cons, Layer.rename, find?, loopName?_rename, ih]
          cases loopName? index name <;> rfl
      | value found =>
          have same : (found.rename ρ).shape = found.shape := rfl
          simp only [rename_cons, Layer.rename, find?, same, ih, child?_rename]
          split
          · cases find? schema name .declared outer with
            | error problem => rfl
            | ok hit =>
                cases hit with
                | some hit => rfl
                | none =>
                    by_cases near : reach = .declared
                    · simp [near, Except.map]
                    · cases dynamic : found.shape.isDynamic with
                      | true =>
                          simp only [Except.map, Option.map_none, ok_bind, near, if_false, if_true]
                          rfl
                      | false => simp [near, Except.map]
          · cases child? schema found name with
            | error problem => rfl
            | ok hit => cases hit <;> rfl

theorem lookupFirst_rename {first : String} {dotted : Bool} {purpose : NameUse}
    {result : ShapedExpr ⊕ LambdaDecl}
    (done : lookupFirst schema scope name first dotted purpose = .ok result) :
    lookupFirst schema (scope.rename ρ) name first dotted purpose =
      .ok (result.map (ShapedExpr.rename ρ) id) := by
  unfold lookupFirst at done ⊢
  rw [fixed?_rename, find?_rename, find?_rename]
  cases fixed : scope.fixed? first with
  | some found =>
      rw [fixed] at done
      cases done
      rfl
  | none =>
      rw [fixed] at done
      obtain ⟨declared, near, done⟩ := bind_eq_ok.mp done
      rw [near]
      cases declared with
      | some found =>
          cases done
          rfl
      | none =>
          simp only [Except.map, Option.map_none, ok_bind] at done ⊢
          split at done
          · cases done
            rfl
          · cases done
          · obtain ⟨all, far, done⟩ := bind_eq_ok.mp done
            rw [far]
            cases all with
            | none => cases done
            | some found =>
                cases done
                rfl

theorem descend_rename {rest : List String} {base : ShapedExpr}
    (done : descend schema scope name base rest = .ok found) :
    descend schema (scope.rename ρ) name (base.rename ρ) rest = .ok (found.rename ρ) := by
  induction rest generalizing base with
  | nil =>
      cases done
      rfl
  | cons segment rest ih =>
      have same : (base.rename ρ).shape = base.shape := rfl
      rw [descend, same, child?_rename]
      rw [descend] at done
      split at done
      · next parted =>
          obtain ⟨part?, step, done⟩ := bind_eq_ok.mp done
          rw [if_pos parted, step]
          cases part? with
          | none => cases done
          | some part => exact ih done
      · cases done

theorem lookup_rename {purpose : NameUse} {result : ShapedExpr ⊕ LambdaDecl}
    (done : lookup schema scope name purpose = .ok result) :
    lookup schema (scope.rename ρ) name purpose = .ok (result.map (ShapedExpr.rename ρ) id) := by
  cases pieces : segments name with
  | nil =>
      rw [lookup_nil pieces] at done
      cases done
  | cons first rest =>
      rw [lookup_cons pieces] at done ⊢
      split at done
      · cases done
      · next filled =>
          obtain ⟨start, begun, done⟩ := bind_eq_ok.mp done
          rw [if_neg filled, lookupFirst_rename begun, ok_bind]
          cases start with
          | inr decl =>
              cases done
              rfl
          | inl base =>
              obtain ⟨found, followed, done⟩ := bind_eq_ok.mp done
              cases done
              simp only [Sum.map_inl, descend_rename followed, ok_bind]
              rfl

theorem addPresent_rename (expr : Expr) (guards : List Guard) :
    addPresent (expr.rename ρ) (guards.map (Guard.rename ρ)) =
      (addPresent expr guards).map (Guard.rename ρ) := by
  have same : (guards.map (Guard.rename ρ)).head? = some (.present (expr.rename ρ)) ↔
      guards.head? = some (.present expr) := by
    cases guards with
    | nil => simp
    | cons guard guards => cases guard <;> simp [Guard.rename, (Expr.rename_injective ρ).eq_iff]
  unfold addPresent
  by_cases present : guards.head? = some (.present expr)
  · rw [if_pos present, if_pos (same.mpr present)]
  · rw [if_neg present, if_neg (mt same.mp present)]
    rfl

theorem elementLayer_rename (expr : Expr) (shape : Shape) :
    elementLayer (expr.rename ρ) shape =
      ((elementLayer expr shape).1.map (Guard.rename ρ), (elementLayer expr shape).2.rename ρ) := by
  induction shape with
  | optional inner ih => simp only [elementLayer, ih, addPresent_rename]
  | _ => rfl

theorem sectionOver_rename {guards : List Guard} (follows : ρ.Follows names other)
    (opened : sectionOver schema scope expr names shape = .ok (guards, inside, after)) :
    ∃ later, sectionOver schema (scope.rename ρ) (expr.rename ρ) other shape =
        .ok (guards.map (Guard.rename ρ), inside.rename ρ, later) ∧ ρ.Follows after later := by
  induction shape generalizing guards with
  | optional inner ih =>
      obtain ⟨within, deeper, rfl⟩ := sectionOver_optional opened
      obtain ⟨later, renamed, follows⟩ := ih deeper
      refine ⟨later, ?_, follows⟩
      simp only [sectionOver, renamed, ok_bind, addPresent_rename, pure_eq_ok]
  | sequence element ih =>
      obtain ⟨item, index, loop, rfl, rfl⟩ := sectionOver_sequence opened
      obtain ⟨later, ⟨middle, first, second⟩, follows⟩ := follows.loop loop
      refine ⟨later, ?_, follows⟩
      have layer : elementLayer (.var (ρ.apply item)) element = _ :=
        elementLayer_rename (.var item) element
      simp only [sectionOver, first, second, layer]
      rfl
  | dynamic =>
      obtain ⟨item, index, loop, rfl, rfl⟩ := sectionOver_dynamic opened
      obtain ⟨later, ⟨middle, first, second⟩, follows⟩ := follows.loop loop
      refine ⟨later, ?_, follows⟩
      simp only [sectionOver, first, second]
      rfl
  | struct structName =>
      obtain ⟨decl, declared, same⟩ := bind_eq_ok.mp opened
      cases same
      refine ⟨other, ?_, follows⟩
      simp only [sectionOver, declared, ok_bind]
      rfl
  | bool | text | number | enum _ | mapping _ =>
      cases opened
      exact ⟨other, rfl, follows⟩

theorem guardOver_rename {guard : Guard} (follows : ρ.Follows names other)
    (opened : guardOver expr names shape = (guard, after)) :
    ∃ later, guardOver (expr.rename ρ) other shape = (guard.rename ρ, later) ∧
      ρ.Follows after later := by
  induction shape with
  | optional inner ih => exact ih opened
  | sequence element ih =>
      obtain ⟨item, index, loop, rfl⟩ := guardOver_sequence opened
      obtain ⟨later, ⟨middle, first, second⟩, follows⟩ := follows.loop loop
      refine ⟨later, ?_, follows⟩
      simp only [guardOver, first, second]
      rfl
  | dynamic =>
      obtain ⟨item, index, loop, rfl⟩ := guardOver_dynamic opened
      obtain ⟨later, ⟨middle, first, second⟩, follows⟩ := follows.loop loop
      refine ⟨later, ?_, follows⟩
      simp only [guardOver, first, second]
      rfl
  | bool | struct _ | text | number | enum _ | mapping _ =>
      cases opened
      exact ⟨other, rfl, follows⟩

theorem useValue_rename {purpose : NameUse} {result : Meaning} (follows : ρ.Follows names other)
    (used : useValue schema scope name purpose names found = .ok (result, after)) :
    ∃ later, useValue schema (scope.rename ρ) name purpose other (found.rename ρ) =
        .ok (result.rename ρ, later) ∧ ρ.Follows after later := by
  cases purpose with
  | escaped | unescaped =>
      simp only [useValue] at used ⊢
      split at used
      · next writable =>
          cases used
          exact ⟨other, if_pos writable, follows⟩
      · cases used
  | openSection =>
      obtain ⟨⟨guards, inside, last⟩, opened, same⟩ := bind_eq_ok.mp used
      cases same
      obtain ⟨later, renamed, follows⟩ := sectionOver_rename follows opened
      have opens : sectionOver schema (scope.rename ρ) (found.rename ρ).expr other
          (found.rename ρ).shape = _ := renamed
      refine ⟨later, ?_, follows⟩
      simp only [useValue, opens, ok_bind]
      rfl
  | openInverted =>
      cases used
      obtain ⟨later, renamed, follows⟩ := guardOver_rename follows (Prod.eta _).symm
      have opens : guardOver (found.rename ρ).expr other (found.rename ρ).shape = _ := renamed
      refine ⟨later, ?_, follows⟩
      simp only [useValue, opens]
      rfl
  | path | inclusion | parent | block =>
      cases used
      exact ⟨other, rfl, follows⟩

theorem meaning_rename {purpose : NameUse} {result : Meaning} (follows : ρ.Follows names other)
    (done : meaning schema scope name purpose names = .ok (result, after)) :
    ∃ later, meaning schema (scope.rename ρ) name purpose other = .ok (result.rename ρ, later) ∧
      ρ.Follows after later := by
  unfold meaning at done ⊢
  split at done
  · next template =>
      cases done
      exact ⟨other, if_pos template, follows⟩
  · next value =>
      rw [if_neg value]
      split at done
      · next dot =>
          rw [if_pos dot, current?_rename]
          split at done
          · next found current =>
              rw [current]
              exact useValue_rename follows done
          · cases done
      · next plain =>
          obtain ⟨target, search, done⟩ := bind_eq_ok.mp done
          rw [if_neg plain, lookup_rename search, ok_bind]
          cases target with
          | inl found => exact useValue_rename follows done
          | inr decl =>
              cases done
              exact ⟨other, rfl, follows⟩

end Scope

end Stencil
