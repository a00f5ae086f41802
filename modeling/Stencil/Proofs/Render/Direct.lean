import Stencil.Proofs.Render.Bindings
import Stencil.Proofs.Render.Values
import Stencil.Proofs.Render.Walk
import Stencil.Proofs.Scope.Sections

/-!
Reading a template directly: names are looked up, in values with their shapes, on a stack of the
constructs that are open. Main statement: where the schema says everything of the data and the data
conforms to it, a compiled template writes what is read directly.
-/

namespace Stencil

structure Schema.IsStatic (schema : Schema) : Prop where
  root : schema.root.hasDynamic = false
  fields : ∀ name decl field shape, schema.struct? name = some decl →
    decl.fields.get? field = some shape → shape.hasDynamic = false

theorem Schema.IsStatic.of_forall {schema : Schema} (root : schema.root.hasDynamic = false)
    (fields : ∀ decl ∈ schema.structs, ∀ field ∈ decl.2.fields, field.2.hasDynamic = false) :
    schema.IsStatic := by
  refine ⟨root, ?_⟩
  intro name decl field shape declared given
  obtain ⟨_, _, structs, -⟩ := List.lookup_eq_some_iff.mp declared
  obtain ⟨_, _, parts, -⟩ := List.lookup_eq_some_iff.mp given
  exact fields (name, decl) (by simp [structs]) (field, shape) (by simp [parts])

namespace Direct

/-- What an open construct adds to the stack. -/
inductive Entry where
  | value (value : Json) (shape : Shape)
  /-- A loop at one of its steps. -/
  | loop (position length : Nat)
  | guard (value : Json)
  | inverted

def child? (schema : Schema) (value : Json) (shape : Shape) (name : String) :
    Option (Json × Shape) :=
  match shape with
  | .struct structName =>
      (schema.struct? structName).bind fun decl =>
        (decl.fields.get? name).map fun field => (value.entry name, field)
  | .enum enumName =>
      (schema.enum? enumName).bind fun decl =>
        if name ∈ decl.variants then some (.bool (value.asString? = some name), .bool) else none
  | .mapping element => some (value.entry name, element)
  | _ => none

def loopName? (position length : Nat) (name : String) : Option (Json × Shape) :=
  if name = "@first" ∨ name = "-first" then some (.bool (position = 0), .bool)
  else if name = "@last" ∨ name = "-last" then some (.bool (position + 1 = length), .bool)
  else if name = "@index" then some (.int position, .number)
  else if name = "-index" then some (.int (position + 1), .number)
  else none

namespace Entry

def declared? (schema : Schema) (name : String) : Entry → Option (Json × Shape)
  | value content shape => if shape.isMapping then none else child? schema content shape name
  | loop position length => loopName? position length name
  | guard _ | inverted => none

def mapped? (name : String) : Entry → Option (Json × Shape)
  | value content (.mapping element) => some (content.entry name, element)
  | _ => none

def current? : Entry → Option (Json × Shape)
  | value content shape => some (content, shape)
  | guard content => some (content, .bool)
  | loop _ _ | inverted => none

end Entry

/-- What a template is read with: the schema, the data and the name of the template. -/
structure Input where
  schema : Schema
  data : Json
  template : String

namespace Input

variable (input : Input)

def about : Json := .object [("name", .string input.template)]

def fixed? (name : String) : Option (Json × Shape) :=
  if name = "@root" then some (input.data, input.schema.root)
  else if name = "@template" then some (input.about, .mapping .text)
  else none

/-- What the first segment of a name means: what is fixed, what the innermost entry that is no
mapping has for it, or else what the innermost mapping has. -/
def first? (stack : List Entry) (name : String) : Option (Json × Shape) :=
  (input.fixed? name).or <|
    (stack.findSome? (Entry.declared? input.schema name)).or <| stack.findSome? (Entry.mapped? name)

def descend? (found : Json × Shape) : List String → Option (Json × Shape)
  | [] => some found
  | segment :: rest => do descend? (← child? input.schema found.1 found.2 segment) rest

/-- What a name means on a stack. -/
def resolve? (stack : List Entry) (name : String) : Option (Json × Shape) :=
  if name = "." then stack.findSome? Entry.current?
  else
    match Scope.segments name with
    | [] => none
    | first :: rest =>
        if (first :: rest).any String.isEmpty then none
        else do input.descend? (← input.first? stack first) rest

end Input

def element? (value : Json) : Shape → Option Entry
  | .bool => if value.asBool? = some true then some (.guard value) else none
  | .optional inner => if value.isNull then none else element? value inner
  | shape => some (.value value shape)

def enter (stack : List Entry) (value : Json) : Shape → List (List Entry)
  | .bool => if value.asBool? = some true then [.guard value :: stack] else []
  | .optional inner => if value.isNull then [] else enter stack value inner
  | .sequence element =>
      let items := value.asArray?.getD []
      (items.mapIdx fun position item =>
        ((element? item element).map (· :: .loop position items.length :: stack)).toList).flatten
  | shape => if value.isNull then [] else [.value value shape :: stack]

/-- Whether an inverted section over a value is read. -/
def isOff (value : Json) : Shape → Bool
  | .bool => value.asBool? ≠ some true
  | .optional inner => isOff value inner
  | .sequence _ => (value.asArray?.getD []).isEmpty
  | _ => value.isNull

def reading (input : Input) : Reading (List Entry) where
  value stack name := (input.resolve? stack name).map Prod.fst
  enter stack name := (input.resolve? stack name).map fun (value, shape) => enter stack value shape
  invert stack name := (input.resolve? stack name).map fun (value, shape) =>
    if isOff value shape then [.inverted :: stack] else []

/-- Names that do not start at the context. -/
def Plain (name : String) : Prop := (Scope.segments name).head? ≠ some "@context"

instance : DecidablePred Plain := fun _ => inferInstanceAs (Decidable (_ ≠ _))

structure Means (schema : Schema) (bindings : Bindings) (found : ShapedExpr)
    (meant : Json × Shape) : Prop where
  shape : meant.2 = found.shape
  static : found.shape.hasDynamic = false
  conforms : Conforms schema meant.1 found.shape
  evaluates : ∃ evaluated, bindings.eval found.expr = .ok evaluated ∧
    evaluated.json? = some meant.1

variable {schema : Schema} {bindings later : Bindings} {found : ShapedExpr} {meant : Json × Shape}
  {name : String}

namespace Means

theorem of_keeps (keeps : FreshNames.Keeps later bindings)
    (means : Means schema bindings found meant) : Means schema later found meant := by
  obtain ⟨shape, static, conforms, evaluated, here, same⟩ := means
  exact ⟨shape, static, conforms, evaluated, Bindings.eval_of_keeps keeps here, same⟩

theorem child {result : Option ShapedExpr} (static : schema.IsStatic)
    (means : Means schema bindings found meant)
    (done : Scope.child? schema found name = .ok result) :
    Option.Rel (Means schema bindings) result (child? schema meant.1 meant.2 name) := by
  obtain ⟨expr, shape⟩ := found
  obtain ⟨value, other⟩ := meant
  obtain ⟨same, known, conforms, evaluated, here, json⟩ := means
  dsimp only at same known conforms here json
  subst same
  cases other with
  | struct structName =>
      obtain ⟨decl, declared, done⟩ := bind_eq_ok.mp done
      simp only [pure_eq_ok, Except.ok.injEq] at done
      subst done
      have given : schema.struct? structName = some decl := Scope.structDecl_ok declared
      simp only [child?, given, Option.bind_some]
      cases field : decl.fields.get? name with
      | none => exact .none
      | some part =>
          refine .some ⟨rfl, static.fields _ _ _ _ given field, conforms.field rfl given field,
            evaluated.part name, ?_, Value.part_of_json? json name⟩
          simp [Bindings.eval, here]
  | enum enumName =>
      simp only [Scope.child?] at done
      split at done
      · cases done
      · next decl given =>
          cases done
          simp only [child?, given, Option.bind_some]
          split
          · refine .some ⟨rfl, rfl, .bool, .json (.bool _), ?_, rfl⟩
            simp only [Bindings.eval, here, ok_bind, pure_eq_ok, Value.isText_of_json? json]
          · exact .none
  | mapping element =>
      cases done
      refine .some ⟨rfl, known, conforms.entry rfl name, evaluated.part name, ?_,
        Value.part_of_json? json name⟩
      simp [Bindings.eval, here]
  | dynamic => cases known
  | bool | text | number | optional _ | sequence _ =>
      cases done
      exact .none

theorem descend {input : Input} {scope : Scope} {base : ShapedExpr} {start : Json × Shape}
    {rest : List String} (static : input.schema.IsStatic)
    (means : Means input.schema bindings base start)
    (follow : Scope.descend input.schema scope name base rest = .ok found) :
    ∃ meant, input.descend? start rest = some meant ∧
      Means input.schema bindings found meant := by
  induction rest generalizing base start with
  | nil =>
      cases follow
      exact ⟨start, rfl, means⟩
  | cons segment rest ih =>
      simp only [Scope.descend] at follow
      split at follow
      · obtain ⟨part?, step, follow⟩ := bind_eq_ok.mp follow
        have rel := means.child static step
        cases part? with
        | none => cases follow
        | some part =>
            obtain ⟨meant, same, partMeans⟩ := rel_some.mp rel
            simp only [Input.descend?, same]
            exact ih partMeans follow
      · cases follow

theorem inner {expr : Expr} {inner : Shape} {value : Json}
    (means : Means schema bindings ⟨expr, .optional inner⟩ (value, .optional inner)) :
    Means schema bindings ⟨expr, inner⟩ (value, inner) := by
  obtain ⟨-, static, conforms, here⟩ := means
  refine ⟨rfl, static, ?_, here⟩
  cases conforms with
  | null => exact .null
  | optional conforms => exact conforms

theorem sequence {expr : Expr} {element : Shape} {value : Json}
    (means : Means schema bindings ⟨expr, .sequence element⟩ (value, .sequence element)) :
    bindings.sequence expr = .ok (value.asArray?.getD []) ∧
      ∀ item ∈ value.asArray?.getD [], Conforms schema item element := by
  obtain ⟨-, -, conforms, evaluated, here, json⟩ := means
  simp only [Bindings.sequence, here, ok_bind]
  rcases conforms.items rfl with rfl | ⟨items, rfl, each⟩
  · cases evaluated <;> cases json <;> exact ⟨rfl, by simp [Json.asArray?]⟩
  · cases evaluated with
    | json content =>
        cases json
        exact ⟨rfl, each⟩
    | missing | node _ | step _ _ => cases json

theorem passes {names after : FreshNames} {expr : Expr} {value : Json} {shape : Shape}
    {guard : Guard} (means : Means schema bindings ⟨expr, shape⟩ (value, shape))
    (opened : Scope.guardOver expr names shape = (guard, after)) :
    ∃ steps, bindings.passes guard = .ok steps ∧ steps.isEmpty = isOff value shape := by
  induction shape with
  | bool =>
      cases opened
      obtain ⟨evaluated, here, json⟩ := means.evaluates
      refine ⟨if evaluated.isTruthy then [bindings] else [], ?_, ?_⟩
      · simp only [Bindings.passes, here, ok_bind, pure_eq_ok]
      · rw [Value.isTruthy_of_json? json means.conforms]
        by_cases on : value.asBool? = some true <;> simp [isOff, on]
  | optional inner ih => exact ih means.inner opened
  | sequence shape =>
      obtain ⟨element, index, loop, rfl⟩ := Scope.guardOver_sequence opened
      obtain ⟨sequence, -⟩ := means.sequence
      refine ⟨bindings.loop element index ((value.asArray?.getD []).map .json), ?_, ?_⟩
      · simp only [Bindings.passes, sequence, ok_bind, pure_eq_ok]
      · simp [isOff]
  | dynamic => cases means.static
  | text | number | mapping _ | struct _ | enum _ =>
      obtain ⟨rfl, rfl⟩ := Scope.guardOver_single rfl opened
      obtain ⟨evaluated, here, json⟩ := means.evaluates
      refine ⟨if evaluated.isPresent then [bindings] else [], ?_, ?_⟩
      · simp only [Bindings.passes, here, ok_bind, pure_eq_ok]
      · rw [Value.isPresent_of_json? json]
        cases null : value.isNull <;> simp [isOff, null]

end Means

inductive LayerShows (schema : Schema) (bindings : Bindings) : Layer → Entry → Prop where
  | value {found : ShapedExpr} {value : Json} {shape : Shape} :
      Means schema bindings found (value, shape) →
      LayerShows schema bindings (.value found) (.value value shape)
  | guard {found : ShapedExpr} {value : Json} : Means schema bindings found (value, .bool) →
      LayerShows schema bindings (.guard found) (.guard value)
  | iteration {index : String} {position length : Nat} :
      bindings.loopState index = .ok (position, length) →
      LayerShows schema bindings (.iteration index) (.loop position length)
  | inverted : LayerShows schema bindings .inverted .inverted

/-- That a stack shows what is in scope, layer by layer, down to the root. -/
inductive Shows (input : Input) (bindings : Bindings) : Scope → List Entry → Prop where
  | root {fixed : List (String × ShapedExpr)} :
      (∀ name, name ≠ "@context" →
        Option.Rel (Means input.schema bindings) (fixed.lookup name) (input.fixed? name)) →
      Shows input bindings [.root fixed] []
  | layer {layer : Layer} {entry : Entry} {scope : Scope} {stack : List Entry} :
      LayerShows input.schema bindings layer entry → Shows input bindings scope stack →
      Shows input bindings (layer :: scope) (entry :: stack)

variable {input : Input} {scope inside : Scope} {stack : List Entry} {result : Option ShapedExpr}

theorem LayerShows.of_keeps {layer : Layer} {entry : Entry}
    (keeps : FreshNames.Keeps later bindings) (shows : LayerShows schema bindings layer entry) :
    LayerShows schema later layer entry := by
  cases shows with
  | value means => exact .value (means.of_keeps keeps)
  | guard means => exact .guard (means.of_keeps keeps)
  | iteration state => exact .iteration (Bindings.loopState_of_keeps keeps state)
  | inverted => exact .inverted

namespace Shows

theorem of_keeps (keeps : FreshNames.Keeps later bindings)
    (shows : Shows input bindings scope stack) : Shows input later scope stack := by
  induction shows with
  | root fixed =>
      refine .root ?_
      intro name given
      exact rel_imp (fun _ _ => Means.of_keeps keeps) (fixed name given)
  | layer shows _ ih => exact .layer (shows.of_keeps keeps) ih

theorem fixed (shows : Shows input bindings scope stack) (given : name ≠ "@context") :
    Option.Rel (Means input.schema bindings) (scope.fixed? name) (input.fixed? name) := by
  induction shows with
  | root fixed =>
      have rel := fixed name given
      simp only [Scope.fixed?, List.findSome?_cons, List.findSome?_nil]
      split <;> simp_all
  | layer shows _ ih => cases shows <;> exact ih

theorem current (shows : Shows input bindings scope stack) :
    Option.Rel (Means input.schema bindings) scope.current? (stack.findSome? Entry.current?) := by
  induction shows with
  | root fixed => exact .none
  | layer shows _ ih =>
      cases shows with
      | value means | guard means => exact .some means
      | iteration _ | inverted => exact ih

theorem loopName {index : String} {position length : Nat}
    (state : bindings.loopState index = .ok (position, length)) (name : String) :
    Option.Rel (Means schema bindings) (Scope.loopName? index name)
      (loopName? position length name) := by
  unfold Scope.loopName? Direct.loopName?
  repeat' split
  · refine .some ⟨rfl, rfl, .bool, .json _, ?_, rfl⟩
    simp only [Bindings.eval, state, ok_bind, pure_eq_ok]
  · refine .some ⟨rfl, rfl, .bool, .json _, ?_, rfl⟩
    simp only [Bindings.eval, state, ok_bind, pure_eq_ok]
  · refine .some ⟨rfl, rfl, .int, .json _, ?_, rfl⟩
    simp [Bindings.eval, state]
  · refine .some ⟨rfl, rfl, .int, .json _, ?_, rfl⟩
    simp [Bindings.eval, state]
  · exact .none

theorem declared (static : input.schema.IsStatic) (shows : Shows input bindings scope stack)
    (done : Scope.find? input.schema name .declared scope = .ok result) :
    Option.Rel (Means input.schema bindings) result
      (stack.findSome? (Entry.declared? input.schema name)) := by
  induction shows generalizing result with
  | root fixed =>
      cases done
      exact .none
  | @layer layer entry scope stack shows _ ih =>
      cases shows with
      | @value found value shape means =>
          obtain ⟨expr, given⟩ := found
          have same : shape = given := means.shape
          have known : given.hasDynamic = false := means.static
          subst same
          rw [List.findSome?_cons]
          cases mapping : shape.isMapping with
          | true =>
              rw [Scope.find?_declared_mapping mapping] at done
              simp only [Entry.declared?, mapping, if_true]
              exact ih done
          | false =>
              have plain : shape.isOpenEnded = false := by
                simp [Shape.isOpenEnded, mapping, Shape.isDynamic_of_static known]
              rw [Scope.find?_value plain] at done
              obtain ⟨direct, children, done⟩ := bind_eq_ok.mp done
              have rel := means.child static children
              simp only [Entry.declared?, mapping, Bool.false_eq_true, if_false]
              cases direct with
              | none =>
                  rw [rel_none.mp rel]
                  exact ih done
              | some hit =>
                  cases done
                  obtain ⟨meant, same, part⟩ := rel_some.mp rel
                  rw [same]
                  exact .some part
      | @iteration index position length state =>
          have rel : Option.Rel (Means input.schema bindings) (Scope.loopName? index name)
              (loopName? position length name) := loopName state name
          simp only [Scope.find?] at done
          rw [List.findSome?_cons]
          simp only [Entry.declared?]
          split at done
          · next hit looped =>
              cases done
              rw [looped] at rel
              obtain ⟨meant, same, means⟩ := rel_some.mp rel
              rw [same]
              exact .some means
          · next unlooped =>
              rw [unlooped] at rel
              rw [rel_none.mp rel]
              exact ih done
      | guard _ | inverted => exact ih (by simpa only [Scope.find?] using done)

theorem mapped (static : input.schema.IsStatic) (shows : Shows input bindings scope stack)
    (none : Scope.find? input.schema name .declared scope = .ok none)
    (done : Scope.find? input.schema name .all scope = .ok result) :
    Option.Rel (Means input.schema bindings) result (stack.findSome? (Entry.mapped? name)) := by
  induction shows generalizing result with
  | root fixed =>
      cases done
      exact .none
  | @layer layer entry scope stack shows _ ih =>
      rw [List.findSome?_cons]
      cases shows with
      | @value found value shape means =>
          obtain ⟨expr, given⟩ := found
          have same : shape = given := means.shape
          have known : given.hasDynamic = false := means.static
          subst same
          cases mapping : shape.isMapping with
          | true =>
              -- Nothing further out is declared, so that the search ends at this mapping.
              rw [Scope.find?_declared_mapping mapping] at none
              cases shape with
              | mapping element =>
                  rw [Scope.find?_all_mapping none] at done
                  cases done
                  exact means.child static rfl
              | _ => cases mapping
          | false =>
              have plain : shape.isOpenEnded = false := by
                simp [Shape.isOpenEnded, mapping, Shape.isDynamic_of_static known]
              rw [Scope.find?_value plain] at none done
              obtain ⟨direct, children, none⟩ := bind_eq_ok.mp none
              obtain ⟨again, same, done⟩ := bind_eq_ok.mp done
              cases children.symm.trans same
              have silent : Entry.mapped? name (.value value shape) = Option.none := by
                cases shape <;> first | rfl | cases mapping
              rw [silent]
              cases direct with
              | none => exact ih none done
              | some hit => cases none
      | iteration state =>
          simp only [Scope.find?] at none done
          split at none
          · cases none
          · next unlooped =>
              rw [unlooped] at done
              exact ih none done
      | guard _ | inverted =>
          exact ih (by simpa only [Scope.find?] using none) (by simpa only [Scope.find?] using done)

theorem first {first : String} {dotted : Bool} {purpose : NameUse}
    (static : input.schema.IsStatic) (shows : Shows input bindings scope stack)
    (given : first ≠ "@context")
    (start : Scope.lookupFirst input.schema scope name first dotted purpose = .ok (.inl found)) :
    ∃ meant, input.first? stack first = some meant ∧
      Means input.schema bindings found meant := by
  have fixed := shows.fixed given
  unfold Input.first?
  rcases Scope.lookupFirst_value start with here | ⟨none, further⟩
  · rw [here] at fixed
    obtain ⟨meant, same, means⟩ := rel_some.mp fixed
    exact ⟨meant, by rw [same, Option.some_or], means⟩
  · rw [none] at fixed
    rw [rel_none.mp fixed, Option.none_or]
    rcases further with declared | ⟨silent, search⟩
    · obtain ⟨meant, same, means⟩ := rel_some.mp (shows.declared static declared)
      exact ⟨meant, by rw [same, Option.some_or], means⟩
    · rw [rel_none.mp (shows.declared static silent), Option.none_or]
      exact rel_some.mp (shows.mapped static silent search)

theorem refers {purpose : NameUse} (static : input.schema.IsStatic)
    (shows : Shows input bindings scope stack) (plain : Plain name)
    (refers : Scope.Refers input.schema scope name purpose found) :
    ∃ meant, input.resolve? stack name = some meant ∧
      Means input.schema bindings found meant := by
  unfold Input.resolve?
  rcases refers with ⟨dot, current⟩ | ⟨noDot, done⟩
  · rw [if_pos dot]
    have rel := shows.current
    rw [current] at rel
    exact rel_some.mp rel
  · rw [if_neg noDot]
    obtain ⟨first, rest, base, pieces, filled, start, follow⟩ := Scope.lookup_value done
    have given : first ≠ "@context" := by
      intro same
      exact plain (by rw [pieces, same]; rfl)
    obtain ⟨origin, same, means⟩ := shows.first static given start
    obtain ⟨meant, reached, reachedMeans⟩ := means.descend static follow
    refine ⟨meant, ?_, reachedMeans⟩
    simp only [pieces, filled, Bool.false_eq_true, if_false, same]
    exact reached

end Shows

structure Reflects (input : Input) (scope : Scope) (names : FreshNames) (bindings : Bindings)
    (stack : List Entry) : Prop where
  covers : names.Covers bindings
  shows : Shows input bindings scope stack

namespace Reflects

variable {names after : FreshNames} {expr : Expr} {value : Json} {shape : Shape}
  {guards : List Guard}

theorem extend (reflects : Reflects input scope names bindings stack) (more : after.Extends names) :
    Reflects input scope after bindings stack :=
  ⟨reflects.covers.later more, reflects.shows⟩

theorem layer {layer : Layer} {entry : Entry} (reflects : Reflects input scope names bindings stack)
    (shows : LayerShows input.schema bindings layer entry) :
    Reflects input (layer :: scope) names bindings (entry :: stack) :=
  ⟨reflects.covers, .layer shows reflects.shows⟩

theorem element {layer : Layer} (reflects : Reflects input scope names bindings stack)
    (means : Means input.schema bindings ⟨expr, shape⟩ (value, shape))
    (opened : Scope.elementLayer expr shape = (guards, layer)) :
    ∃ steps, bindings.passesAll guards = .ok steps ∧
      List.Forall₂ (Reflects input (layer :: scope) names) steps
        ((element? value shape).map (· :: stack)).toList := by
  induction shape generalizing guards with
  | bool =>
      cases opened
      obtain ⟨evaluated, here, json⟩ := means.evaluates
      rw [Bindings.passesAll_truthy here, Value.isTruthy_of_json? json means.conforms]
      by_cases on : value.asBool? = some true
      · simp only [element?, on, decide_true, if_true]
        exact ⟨[bindings], rfl, .cons (reflects.layer (.guard means)) .nil⟩
      · simp only [element?, on, decide_false, Bool.false_eq_true, if_false]
        exact ⟨[], rfl, .nil⟩
  | optional inner ih =>
      cases opened
      obtain ⟨evaluated, here, json⟩ := means.evaluates
      rw [Bindings.passesAll_addPresent here, Value.isPresent_of_json? json]
      simp only [element?]
      cases value.isNull with
      | true => exact ⟨[], rfl, .nil⟩
      | false => exact ih means.inner rfl
  | text | number | dynamic | sequence _ | mapping _ | struct _ | enum _ =>
      cases opened
      exact ⟨[bindings], rfl, .cons (reflects.layer (.value means)) .nil⟩

theorem step {element index : String} {item : Json} {shape : Shape}
    (reflects : Reflects input scope names bindings stack)
    (loop : names.LoopNames element index after) (static : shape.hasDynamic = false)
    (conforms : Conforms input.schema item shape) (position length : Nat) :
    Reflects input (.iteration index :: scope) after
        (bindings.withStep element (.json item) index position length)
        (.loop position length :: stack) ∧
      Means input.schema (bindings.withStep element (.json item) index position length)
        ⟨.var element, shape⟩ (item, shape) := by
  obtain ⟨covers, keeps, bound⟩ :=
    reflects.covers.loop loop (Value.json item) (.step position length)
  refine ⟨⟨covers, .layer (.iteration ?_) (reflects.shows.of_keeps keeps)⟩, rfl, static, conforms,
    .json item, ?_, rfl⟩
  · simp [Bindings.loopState, Bindings.withStep]
  · simp only [Bindings.eval, Bindings.withStep, bound]

theorem enterSequence {variableName index : String} {element : Shape}
    (reflects : Reflects input scope names bindings stack)
    (means : Means input.schema bindings ⟨expr, .sequence element⟩ (value, .sequence element))
    (loop : names.LoopNames variableName index after) :
    ∃ steps, bindings.passesAll (.each expr variableName index ::
        (Scope.elementLayer (.var variableName) element).1) = .ok steps ∧
      List.Forall₂
        (Reflects input ((Scope.elementLayer (.var variableName) element).2 ::
          .iteration index :: scope) after)
        steps (Direct.enter stack value (.sequence element)) := by
  have static : element.hasDynamic = false := means.static
  obtain ⟨sequence, each⟩ := means.sequence
  have loops : bindings.passes (.each expr variableName index) =
      .ok (bindings.loop variableName index ((value.asArray?.getD []).map .json)) := by
    simp only [Bindings.passes, sequence, ok_bind, pure_eq_ok]
  have steps : List.Forall₂
      (fun inner deeper => ∃ steps,
        inner.passesAll (Scope.elementLayer (.var variableName) element).1 = .ok steps ∧
          List.Forall₂
            (Reflects input ((Scope.elementLayer (.var variableName) element).2 ::
              .iteration index :: scope) after)
            steps deeper)
      (bindings.loop variableName index ((value.asArray?.getD []).map .json))
      ((value.asArray?.getD []).mapIdx fun position item =>
        ((element? item element).map
          (· :: .loop position (value.asArray?.getD []).length :: stack)).toList) := by
    refine Bindings.forall₂_loop (by simp) ?_
    intro position here there
    simp only [List.length_map] at here
    simp only [List.getElem_map, List.getElem_mapIdx, List.length_map]
    have conforms := each _ (List.getElem_mem here)
    obtain ⟨inner, item⟩ := reflects.step loop static conforms position _
    exact inner.element item rfl
  obtain ⟨lists, passed, related⟩ := exists_mapM_forall₂ steps
  refine ⟨lists.flatten, ?_, List.rel_flatten related⟩
  simp only [Bindings.passesAll, loops, passed, ok_bind, pure_eq_ok]

theorem enter (reflects : Reflects input scope names bindings stack)
    (means : Means input.schema bindings ⟨expr, shape⟩ (value, shape))
    (opened : Scope.sectionOver input.schema scope expr names shape = .ok (guards, inside, after)) :
    ∃ steps, bindings.passesAll guards = .ok steps ∧
      List.Forall₂ (Reflects input inside after) steps (enter stack value shape) := by
  induction shape generalizing guards with
  | bool =>
      obtain ⟨rfl, rfl, rfl⟩ := Scope.sectionOver_bool opened
      obtain ⟨evaluated, here, json⟩ := means.evaluates
      rw [Bindings.passesAll_truthy here, Value.isTruthy_of_json? json means.conforms]
      by_cases on : value.asBool? = some true
      · simp only [Direct.enter, on, decide_true, if_true]
        exact ⟨[bindings], rfl, .cons (reflects.layer (.guard means)) .nil⟩
      · simp only [Direct.enter, on, decide_false, Bool.false_eq_true, if_false]
        exact ⟨[], rfl, .nil⟩
  | optional inner ih =>
      obtain ⟨within, deeper, rfl⟩ := Scope.sectionOver_optional opened
      obtain ⟨evaluated, here, json⟩ := means.evaluates
      rw [Bindings.passesAll_addPresent here, Value.isPresent_of_json? json]
      simp only [Direct.enter]
      cases value.isNull with
      | true => exact ⟨[], rfl, .nil⟩
      | false => exact ih means.inner deeper
  | sequence element =>
      obtain ⟨variableName, index, loop, rfl, rfl⟩ := Scope.sectionOver_sequence opened
      exact reflects.enterSequence means loop
  | dynamic => cases means.static
  | struct _ | text | number | mapping _ | enum _ =>
      obtain ⟨rfl, rfl, rfl⟩ := Scope.sectionOver_single rfl opened
      obtain ⟨evaluated, here, json⟩ := means.evaluates
      rw [Bindings.passesAll_present here, Value.isPresent_of_json? json]
      simp only [Direct.enter]
      cases value.isNull with
      | true => exact ⟨[], rfl, .nil⟩
      | false => exact ⟨[bindings], rfl, .cons (reflects.layer (.value means)) .nil⟩

end Reflects

theorem follows (static : input.schema.IsStatic) :
    Follows input.schema Plain (reading input) (Reflects input) where
  value := by
    intro scope names after bindings stack kind name purpose escaping found reflects plain writing
      means
    obtain ⟨other, refers, -, same, rfl⟩ :=
      Scope.meaning_variable (TagKind.purpose_of_writing? writing) means
    cases same
    obtain ⟨meant, read, -, -, -, evaluated, here, json⟩ :=
      reflects.shows.refers static plain refers
    refine ⟨⟨evaluated, meant.1, here, ?_, Value.text_of_json? json⟩, reflects⟩
    simp [reading, read]
  enter := by
    intro scope names after bindings stack name guards inside reflects plain means
    rcases Scope.meaning_openSection means with
      ⟨found, _, _, refers, opened, same⟩ | ⟨_, _, same, _⟩
    · cases same
      obtain ⟨⟨value, shape⟩, read, known⟩ := reflects.shows.refers static plain refers
      have same : shape = found.shape := known.shape
      subst same
      obtain ⟨steps, passed, each⟩ := reflects.enter known opened
      refine ⟨⟨steps, _, passed, ?_, each⟩,
        reflects.extend (Scope.extends_sectionOver opened)⟩
      simp [reading, read]
    · cases same
  invert := by
    intro scope names after bindings stack name guard inside reflects plain means
    obtain ⟨found, _, refers, opened, same⟩ := Scope.meaning_openInverted means
    cases same
    obtain ⟨⟨value, shape⟩, read, known⟩ := reflects.shows.refers static plain refers
    have same : shape = found.shape := known.shape
    subst same
    obtain ⟨steps, passed, empty⟩ := known.passes opened
    have further := reflects.extend (Scope.extends_guardOver opened)
    refine ⟨⟨steps, if isOff value found.shape then [.inverted :: stack] else [], passed, ?_, ?_⟩,
      further⟩
    · simp [reading, read]
    · rw [empty]
      split
      · exact .cons (further.layer .inverted) .nil
      · exact .nil

theorem Reflects.root (conforms : Conforms input.schema input.data input.schema.root)
    (static : input.schema.IsStatic) (context : ContextNode) :
    Reflects input (.root input.schema.root) .root (.root input.template input.data context)
      [.value input.data input.schema.root] := by
  have data : Means input.schema (.root input.template input.data context)
      ⟨.var "data", input.schema.root⟩ (input.data, input.schema.root) :=
    ⟨rfl, static.root, conforms, .json input.data, rfl, rfl⟩
  refine ⟨Bindings.covers_root _ _ _, .layer (.value data) (.root ?_)⟩
  intro name given
  unfold Input.fixed?
  simp only [List.lookup_cons, List.lookup_nil, beq_eq_false_iff_ne.mpr given]
  by_cases rootName : name = "@root"
  · subst rootName
    exact .some data
  by_cases templateName : name = "@template"
  · subst templateName
    exact .some ⟨rfl, rfl, .template input.template, .json input.about, rfl, rfl⟩
  · simp only [beq_eq_false_iff_ne.mpr rootName, beq_eq_false_iff_ne.mpr templateName,
      if_neg rootName, if_neg templateName]
    exact .none

/-- A template of plain tags writes what is read directly, if the schema says everything of the data
and the data conforms to it. -/
theorem render_eq_of_static {library : Library} {options : Options} {template : Template}
    {program : Program} {data : Json} (static : schema.IsStatic) (lambdas : schema.lambdas = [])
    (conforms : Conforms schema data schema.root) (plain : template.Plain Plain)
    (compiled : Program.compile schema library options template = .ok program)
    (renderer : Renderer) (context : ContextNode) :
    ∃ text, (reading ⟨schema, data, template.name⟩).text? renderer
        [.value data schema.root] template = some text ∧
      renderer.render program data context = .ok text := by
  have start := @Reflects.root ⟨schema, data, template.name⟩ conforms static context
  exact Program.compile_follows (follows static) lambdas compiled plain start

/-- A list whose title is found from within its rows, of which one is absent. -/
theorem render_eq_of_static_list :
    let schema := (Schema.ofRoot (.struct "list")).withStruct "list"
      ⟨[("rows", .sequence (.optional .text)), ("title", .text)], []⟩
    let template : Template := ⟨"list", "{{# rows}}{{title}} {{.}}{{^@last}}, {{/@last}}{{/rows}}"⟩
    let data : Json :=
      .object [("rows", .array [.string "1", .null, .string "2"]), ("title", .string "a")]
    ∃ program, Program.compile schema (.ofCatalog []) .default template = .ok program ∧
      ∃ text, (reading ⟨schema, data, "list"⟩).text? ⟨Escaper.html, []⟩
          [.value data (.struct "list")] template = some text ∧
        Renderer.render ⟨Escaper.html, []⟩ program data .empty = .ok text := by
  intro schema template data
  have compiles : (Program.compile schema (.ofCatalog []) .default template).isOk = true := by
    decide +kernel
  obtain ⟨program, compiled⟩ := eq_ok_of_isOk compiles
  exact ⟨program, compiled, render_eq_of_static (.of_forall rfl (by decide)) rfl (by decide)
    (by decide +kernel) compiled _ _⟩

example :
    (reading ⟨.ofRoot (.mapping .number), .object [("a", .int 1)], "sum"⟩).text? Renderer.plain
        [.value (.object [("a", .int 1)]) (.mapping .number)]
        ⟨"sum", "{{a}}{{b}}{{@root.a}} {{@template.name}}"⟩ = some "11 sum" := by
  decide +kernel

end Direct

end Stencil
