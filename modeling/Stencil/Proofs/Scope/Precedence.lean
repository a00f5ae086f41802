import Stencil.Proofs.Scope.Lookup

/-!
Which of several values with a name is meant. Main statement: a name is looked up by one flat rule,
in which what answers to every name comes last, whatever it stands within.
-/

namespace Stencil

def Shape.isDeclared (schema : Schema) : Shape → Bool
  | .struct name => (schema.struct? name).isSome
  | .enum name => (schema.enum? name).isSome
  | .optional inner | .sequence inner | .mapping inner => inner.isDeclared schema
  | .bool | .text | .number | .dynamic => true

def Schema.isComplete (schema : Schema) : Bool :=
  schema.structs.all fun entry => entry.2.fields.all fun field => field.2.isDeclared schema

theorem Schema.isDeclared_of_field {schema : Schema} (complete : schema.isComplete = true)
    {name field : String} {decl : StructDecl} {shape : Shape}
    (known : schema.struct? name = some decl) (given : decl.fields.get? field = some shape) :
    shape.isDeclared schema = true := by
  obtain ⟨front, more, structs, -⟩ := List.lookup_eq_some_iff.mp known
  obtain ⟨before, rest, fields, -⟩ := List.lookup_eq_some_iff.mp given
  have each := List.all_eq_true.mp complete (name, decl) (by simp [structs])
  exact List.all_eq_true.mp each (field, shape) (by simp [fields])

def ShapedExpr.part? (schema : Schema) (found : ShapedExpr) (name : String) : Option ShapedExpr :=
  match found.shape with
  | .struct structName =>
      (schema.struct? structName).bind fun decl =>
        (decl.fields.get? name).map (⟨.field found.expr name, ·⟩)
  | .enum enumName =>
      (schema.enum? enumName).bind fun decl =>
        if name ∈ decl.variants then some ⟨.is found.expr name, .bool⟩ else none
  | .mapping value => some ⟨.key found.expr name, value⟩
  | .dynamic => some ⟨.nodeChild found.expr name, .dynamic⟩
  | .bool | .text | .number | .optional _ | .sequence _ => none

namespace Layer

def isRoot : Layer → Bool
  | .root _ => true
  | .value _ | .iteration _ | .guard _ | .inverted => false

/-- What a layer has under a name of its own: a field, a variant or a name of a loop. -/
def own? (schema : Schema) (name : String) : Layer → Option ShapedExpr
  | .value found => if found.shape.isOpenEnded then none else found.part? schema name
  | .iteration index => Scope.loopName? index name
  | .root _ | .guard _ | .inverted => none

def isOpenEnded : Layer → Bool
  | .value found => found.shape.isOpenEnded
  | .root _ | .iteration _ | .guard _ | .inverted => false

/-- What a layer has under a name because it answers to every name. -/
def answer? (name : String) : Layer → Option ShapedExpr
  | .value found =>
      match found.shape with
      | .mapping element => some ⟨.key found.expr name, element⟩
      | .dynamic => some ⟨.nodeSearch found.expr name, .dynamic⟩
      | _ => none
  | .root _ | .iteration _ | .guard _ | .inverted => none

end Layer

namespace Scope

def inner (scope : Scope) : Scope := scope.takeWhile (!·.isRoot)

/-- What the innermost layer has that has the name as its own. -/
def own? (schema : Schema) (scope : Scope) (name : String) : Option ShapedExpr :=
  scope.inner.findSome? (Layer.own? schema name)

/-- What the innermost layer has that answers to every name. -/
def answer? (scope : Scope) (name : String) : Option ShapedExpr :=
  scope.inner.findSome? (Layer.answer? name)

/-- The scope without the layers that answer to every name. -/
def closed (scope : Scope) : Scope := scope.filter (!·.isOpenEnded)

def step (schema : Schema) (scope : Scope) (name : String) (found : ShapedExpr)
    (segment : String) : Except NameError ShapedExpr :=
  match found.shape with
  | .bool | .text | .number | .optional _ | .sequence _ =>
      .error (.shape (s!"Cannot resolve '{segment}' of '{name}' through a value of shape " ++
        found.shape.describe))
  | .struct _ | .enum _ | .mapping _ | .dynamic =>
      match found.part? schema segment with
      | some part => .ok part
      | none => .error (scope.notFound name)

/-- What a name of some segments denotes: its first segment is a root binding, or else what a layer
has as its own, or else a lambda where it is the whole name of a section, or else an entry of a
layer that answers to every name; every further segment is a part of the value before it. -/
def denoted (schema : Schema) (scope : Scope) (name : String) (purpose : NameUse) :
    List String → Except NameError (ShapedExpr ⊕ LambdaDecl)
  | [] => .error (scope.notFound name)
  | first :: rest =>
      let follow (found : ShapedExpr) : Except NameError (ShapedExpr ⊕ LambdaDecl) :=
        (rest.foldlM (scope.step schema name) found).map .inl
      let lambda? := if rest.isEmpty then schema.lambdas.get? first else none
      match (scope.fixed? first).or (scope.own? schema first), lambda?, purpose with
      | some found, _, _ => follow found
      | none, some decl, .openSection => .ok (.inr decl)
      | none, some _, .openInverted =>
          .error (.shape s!"Lambda section '{name}' cannot be inverted")
      | none, _, _ =>
          match scope.answer? first with
          | some found => follow found
          | none => .error (scope.notFound name)

variable {schema : Schema} {scope front outer : Scope} {layer : Layer} {found part : ShapedExpr}
  {name segment : String}

def IsDeclared (schema : Schema) (scope : Scope) : Prop :=
  Holds (fun found => found.shape.isDeclared schema = true) scope

theorem isDeclared_root {shape : Shape} (declared : shape.isDeclared schema = true) :
    (root shape).IsDeclared schema := by
  refine holds_cons.mpr ⟨declared, holds_cons.mpr ⟨?_, by simp [Holds]⟩⟩
  simp [LayerHolds, Shape.isDeclared, declared]

theorem child?_eq (declared : found.shape.isDeclared schema = true) (name : String) :
    child? schema found name = .ok (found.part? schema name) := by
  obtain ⟨expr, shape⟩ := found
  cases shape with
  | struct structName =>
      obtain ⟨decl, known⟩ := Option.isSome_iff_exists.mp declared
      simp [child?, ShapedExpr.part?, structDecl, known]
  | enum enumName =>
      obtain ⟨decl, known⟩ := Option.isSome_iff_exists.mp declared
      simp [child?, ShapedExpr.part?, known]
  | _ => rfl

theorem part_isDeclared (complete : schema.isComplete = true)
    (declared : found.shape.isDeclared schema = true)
    (has : found.part? schema name = some part) : part.shape.isDeclared schema = true := by
  obtain ⟨expr, shape⟩ := found
  cases shape with
  | struct structName =>
      obtain ⟨decl, known, has⟩ := Option.bind_eq_some_iff.mp has
      obtain ⟨field, given, rfl⟩ := Option.map_eq_some_iff.mp has
      exact Schema.isDeclared_of_field complete known given
  | enum enumName =>
      obtain ⟨decl, -, has⟩ := Option.bind_eq_some_iff.mp has
      obtain ⟨-, same⟩ := Option.ite_none_right_eq_some.mp has
      cases same
      rfl
  | mapping value =>
      cases has
      exact declared
  | dynamic =>
      cases has
      rfl
  | bool | text | number | optional _ | sequence _ => cases has

theorem descend_eq (complete : schema.isComplete = true) (scope : Scope) (name : String)
    (declared : found.shape.isDeclared schema = true) (rest : List String) :
    descend schema scope name found rest = rest.foldlM (scope.step schema name) found := by
  induction rest generalizing found with
  | nil => rfl
  | cons segment rest ih =>
      rw [descend, List.foldlM_cons, child?_eq declared, ok_bind]
      have onwards : (match found.part? schema segment with
          | some part => descend schema scope name part rest
          | none => .error (scope.notFound name)) =
          (match found.part? schema segment with
            | some part => .ok part
            | none => .error (scope.notFound name)) >>= fun part =>
            rest.foldlM (scope.step schema name) part := by
        cases has : found.part? schema segment with
        | none => rfl
        | some part => exact ih (part_isDeclared complete declared has)
      unfold step
      cases shape : found.shape with
      | struct _ | enum _ | mapping _ | dynamic =>
          simp only [hasParts, if_true]
          exact onwards
      | bool | text | number | optional _ | sequence _ => rfl

theorem own?_cons (within : layer.isRoot = false) :
    own? schema (layer :: outer) name = (layer.own? schema name).or (own? schema outer name) := by
  unfold own? inner
  rw [List.takeWhile_cons, within]
  simp only [Bool.not_false, if_true, List.findSome?_cons]
  cases layer.own? schema name <;> rfl

theorem answer?_cons (within : layer.isRoot = false) :
    answer? (layer :: outer) name = (layer.answer? name).or (answer? outer name) := by
  unfold answer? inner
  rw [List.takeWhile_cons, within]
  simp only [Bool.not_false, if_true, List.findSome?_cons]
  cases layer.answer? name <;> rfl

theorem find?_declared (declared : scope.IsDeclared schema) (name : String) :
    find? schema name .declared scope = .ok (scope.own? schema name) := by
  induction scope with
  | nil => rfl
  | cons layer outer ih =>
      obtain ⟨here, further⟩ := holds_cons.mp declared
      have outwards := ih further
      cases layer with
      | root bindings => rfl
      | guard _ | inverted =>
          rw [own?_cons rfl]
          exact outwards
      | iteration index =>
          rw [own?_cons rfl, find?, outwards]
          simp only [Layer.own?]
          cases loopName? index name <;> rfl
      | value found =>
          rw [own?_cons rfl, Layer.own?]
          cases answers : found.shape.isOpenEnded with
          | false =>
              rw [find?_value answers, child?_eq here, ok_bind, outwards]
              cases found.part? schema name <;> rfl
          | true =>
              rw [find?, answers, outwards]
              cases own? schema outer name <;> rfl

theorem find?_all (declared : scope.IsDeclared schema) (none : scope.own? schema name = none) :
    find? schema name .all scope = .ok (scope.answer? name) := by
  induction scope with
  | nil => rfl
  | cons layer outer ih =>
      obtain ⟨here, further⟩ := holds_cons.mp declared
      cases layer with
      | root bindings => rfl
      | guard _ | inverted =>
          rw [own?_cons rfl] at none
          rw [answer?_cons rfl]
          exact ih further none
      | iteration index =>
          rw [own?_cons rfl, Option.or_eq_none_iff] at none
          rw [answer?_cons rfl, find?, show loopName? index name = Option.none from none.1]
          exact ih further none.2
      | value found =>
          rw [own?_cons rfl, Option.or_eq_none_iff] at none
          rw [answer?_cons rfl]
          obtain ⟨missing, outwards⟩ := none
          cases answers : found.shape.isOpenEnded with
          | false =>
              have silent : Layer.answer? name (.value found) = Option.none := by
                obtain ⟨expr, shape⟩ := found
                cases shape <;> first | rfl | cases answers
              have lacks : found.part? schema name = Option.none := by
                simpa [Layer.own?, answers] using missing
              rw [find?_value answers, child?_eq here, lacks, silent, Option.none_or]
              exact ih further outwards
          | true =>
              have searched : find? schema name .declared outer = .ok Option.none :=
                outwards ▸ find?_declared further name
              obtain ⟨expr, shape⟩ := found
              cases shape with
              | mapping element => exact find?_all_mapping searched
              | dynamic => simp [find?, searched, Shape.isOpenEnded, Shape.isMapping,
                  Shape.isDynamic, Layer.answer?]
              | _ => cases answers

theorem lookupFirst_eq (declared : scope.IsDeclared schema) (name first : String) (dotted : Bool)
    (purpose : NameUse) :
    lookupFirst schema scope name first dotted purpose =
      match (scope.fixed? first).or (scope.own? schema first),
        (if dotted then none else schema.lambdas.get? first), purpose with
      | some found, _, _ => .ok (.inl found)
      | none, some decl, .openSection => .ok (.inr decl)
      | none, some _, .openInverted =>
          .error (.shape s!"Lambda section '{name}' cannot be inverted")
      | none, _, _ =>
          match scope.answer? first with
          | some found => .ok (.inl found)
          | none => .error (scope.notFound name) := by
  unfold lookupFirst
  cases fixed : scope.fixed? first with
  | some found => rfl
  | none =>
      rw [Option.none_or]
      dsimp only
      rw [find?_declared declared, ok_bind]
      cases own : scope.own? schema first with
      | some found => rfl
      | none =>
          rw [find?_all declared own]
          generalize (if dotted then none else schema.lambdas.get? first) = lambda?
          cases lambda? with
          | none => cases scope.answer? first <;> rfl
          | some decl =>
              cases purpose with
              | openSection | openInverted => rfl
              | _ => cases scope.answer? first <;> rfl

theorem hereditary_isDeclared (complete : schema.isComplete = true) :
    Hereditary schema fun found => found.shape.isDeclared schema = true := by
  refine ⟨?_, fun _ _ _ => rfl⟩
  intro found part name declared has
  rw [child?_eq declared, Except.ok.injEq] at has
  exact part_isDeclared complete declared has

theorem lookupFirst_isDeclared {first : String} {dotted : Bool} {purpose : NameUse}
    (complete : schema.isComplete = true) (declared : scope.IsDeclared schema)
    (denotes : lookupFirst schema scope name first dotted purpose = .ok (.inl found)) :
    found.shape.isDeclared schema = true := by
  obtain fixed | ⟨-, own | ⟨-, entry⟩⟩ := lookupFirst_value denotes
  · exact holds_fixed declared fixed
  · exact holds_find (hereditary_isDeclared complete) declared own
  · exact holds_find (hereditary_isDeclared complete) declared entry

/-- A name is looked up in the order of the rule. -/
theorem lookup_eq (complete : schema.isComplete = true) (declared : scope.IsDeclared schema)
    (filled : "" ∉ segments name) (purpose : NameUse) :
    lookup schema scope name purpose = scope.denoted schema name purpose (segments name) := by
  cases pieces : segments name with
  | nil => exact lookup_nil pieces
  | cons first rest =>
      have nonempty : (first :: rest).any String.isEmpty = false := by
        rw [pieces] at filled
        refine List.any_eq_false.mpr fun segment member empty => filled ?_
        rw [String.isEmpty_iff] at empty
        exact empty ▸ member
      have onwards (found : ShapedExpr)
          (start : lookupFirst schema scope name first (!rest.isEmpty) purpose = .ok (.inl found)) :
          (do return .inl (← descend schema scope name found rest)) =
            ((rest.foldlM (scope.step schema name) found).map .inl :
              Except NameError (ShapedExpr ⊕ LambdaDecl)) := by
        rw [descend_eq complete scope name (lookupFirst_isDeclared complete declared start)]
        cases rest.foldlM (scope.step schema name) found <;> rfl
      have lambdas : (if (!rest.isEmpty) = true then none else schema.lambdas.get? first) =
          if rest.isEmpty then schema.lambdas.get? first else none := by
        cases rest <;> rfl
      have start := lookupFirst_eq declared name first (!rest.isEmpty) purpose
      rw [lambdas] at start
      rw [lookup_cons pieces, nonempty]
      unfold denoted
      dsimp only
      generalize (if rest.isEmpty then schema.lambdas.get? first else none) = lambda? at start ⊢
      cases own : (scope.fixed? first).or (scope.own? schema first) with
      | some found =>
          rw [own] at start
          rw [start]
          exact onwards found start
      | none =>
          rw [own] at start
          cases entry : scope.answer? first with
          | none =>
              rw [entry] at start
              rw [start]
              cases lambda? with
              | none => rfl
              | some decl => cases purpose <;> rfl
          | some found =>
              rw [entry] at start
              rw [start]
              cases lambda? with
              | none => exact onwards found start
              | some decl =>
                  cases purpose with
                  | openSection | openInverted => rfl
                  | _ => exact onwards found start

theorem findSome?_closed {α : Type} {f : Layer → Option α}
    (silent : ∀ layer, layer.isOpenEnded = true → f layer = none) (scope : Scope) :
    scope.closed.findSome? f = scope.findSome? f := by
  induction scope with
  | nil => rfl
  | cons layer outer ih =>
      unfold closed at ih ⊢
      cases answers : layer.isOpenEnded with
      | false => rw [List.filter_cons_of_pos (by simp [answers]), List.findSome?_cons, ih,
          List.findSome?_cons]
      | true => rw [List.filter_cons_of_neg (by simp [answers]), ih, List.findSome?_cons,
          silent layer answers]

theorem inner_closed (scope : Scope) : scope.closed.inner = scope.inner.closed := by
  induction scope with
  | nil => rfl
  | cons layer outer ih =>
      unfold closed inner at ih ⊢
      cases answers : layer.isOpenEnded with
      | true =>
          have within : layer.isRoot = false := by
            cases layer with
            | value found => rfl
            | _ => cases answers
          rw [List.filter_cons_of_neg (by simp [answers]), ih,
            List.takeWhile_cons_of_pos (by simp [within]),
            List.filter_cons_of_neg (by simp [answers])]
      | false =>
          rw [List.filter_cons_of_pos (by simp [answers]), List.takeWhile_cons, List.takeWhile_cons]
          split
          · rw [ih, List.filter_cons_of_pos (by simp [answers])]
          · rfl

theorem fixed?_closed (scope : Scope) (name : String) :
    scope.closed.fixed? name = scope.fixed? name := by
  refine findSome?_closed (fun layer answers => ?_) scope
  cases layer with
  | value found => rfl
  | _ => cases answers

theorem own?_closed (scope : Scope) (name : String) :
    own? schema scope.closed name = own? schema scope name := by
  unfold own?
  rw [inner_closed]
  refine findSome?_closed (fun layer answers => ?_) scope.inner
  cases layer with
  | value found => exact if_pos answers
  | _ => cases answers

theorem isDeclared_closed (declared : scope.IsDeclared schema) : scope.closed.IsDeclared schema :=
  fun layer member => declared layer (List.mem_of_mem_filter member)

theorem step_toOption (scope other : Scope) (name : String) (found : ShapedExpr)
    (segment : String) :
    (scope.step schema name found segment).toOption =
      (other.step schema name found segment).toOption := by
  unfold step
  cases found.shape <;> first | rfl | (cases found.part? schema segment <;> rfl)

theorem follow_toOption (scope other : Scope) (name : String) (found : ShapedExpr)
    (rest : List String) :
    (rest.foldlM (scope.step schema name) found).toOption =
      (rest.foldlM (other.step schema name) found).toOption := by
  induction rest generalizing found with
  | nil => rfl
  | cons segment rest ih =>
      rw [List.foldlM_cons, List.foldlM_cons]
      have same : (scope.step schema name found segment).toOption =
          (other.step schema name found segment).toOption := step_toOption ..
      cases here : scope.step schema name found segment with
      | error problem =>
          cases there : other.step schema name found segment with
          | error problem => rfl
          | ok part => simp [here, there, Except.toOption] at same
      | ok part =>
          cases there : other.step schema name found segment with
          | error problem => simp [here, there, Except.toOption] at same
          | ok again =>
              obtain rfl : part = again := by simpa [here, there, Except.toOption] using same
              exact ih part

theorem denoted_closed (purpose : NameUse) {first : String} (rest : List String)
    (own : (scope.own? schema first).isSome) :
    (scope.denoted schema name purpose (first :: rest)).toOption =
      (scope.closed.denoted schema name purpose (first :: rest)).toOption := by
  obtain ⟨found, hit⟩ := Option.isSome_iff_exists.mp
    (show ((scope.fixed? first).or (scope.own? schema first)).isSome by simp [own])
  unfold denoted
  dsimp only
  rw [fixed?_closed, own?_closed, hit]
  have whole (followed : Except NameError ShapedExpr) :
      (followed.map (Sum.inl : ShapedExpr → ShapedExpr ⊕ LambdaDecl)).toOption =
        followed.toOption.map .inl := by
    cases followed <;> rfl
  exact (whole _).trans ((congrArg _ (follow_toOption scope scope.closed name found rest)).trans
    (whole _).symm)

/-- A name without empty segments is looked up by the flat rule, in every scope. What answers to
every name never hides what a layer has as its own. -/
theorem lookup_by_precedence (complete : schema.isComplete = true)
    (declared : scope.IsDeclared schema) (filled : "" ∉ segments name) (purpose : NameUse) :
    lookup schema scope name purpose = scope.denoted schema name purpose (segments name) ∧
      ∀ first ∈ (segments name).head?,
        (∃ layer ∈ scope.inner, (layer.own? schema first).isSome) →
          (lookup schema scope name purpose).toOption =
            (lookup schema scope.closed name purpose).toOption := by
  refine ⟨lookup_eq complete declared filled purpose, ?_⟩
  intro first starts has
  have own : (scope.own? schema first).isSome := List.findSome?_isSome_iff.mpr has
  rw [lookup_eq complete declared filled, lookup_eq complete (isDeclared_closed declared) filled]
  cases pieces : segments name with
  | nil => simp [pieces] at starts
  | cons segment rest =>
      obtain rfl : segment = first := by simpa [pieces] using starts
      exact denoted_closed purpose rest own

/-- The title of a page, named within a mapping. -/
theorem lookup_by_precedence_mapping :
    let schema := (Schema.ofRoot (.struct "Page")).withStruct "Page" ⟨[("title", .text)], []⟩
    let scope : Scope := .value ⟨.var "element", .mapping .text⟩ :: Scope.root (.struct "Page")
    lookup schema scope "title" .escaped = .ok (.inl ⟨.field (.var "data") "title", .text⟩) ∧
      (lookup schema scope "title" .escaped).toOption =
        (lookup schema (Scope.root (.struct "Page")) "title" .escaped).toOption := by
  intro schema scope
  have declared : scope.IsDeclared schema := holds_cons.mpr ⟨rfl, isDeclared_root rfl⟩
  have segment : segments "title" = ["title"] := segments_eq_singleton (by decide)
  have filled : "" ∉ segments "title" := by
    rw [segment]
    decide
  obtain ⟨rule, never⟩ := lookup_by_precedence (by decide) declared filled .escaped
  rw [segment] at rule never
  exact ⟨rule, never "title" rfl ⟨.value ⟨.var "data", .struct "Page"⟩, by decide, by decide⟩⟩

end Scope

end Stencil
