import Mathlib.Logic.Relation
import Stencil.Proofs.Compile.Run
import Stencil.Proofs.Render.Loops
import Stencil.Proofs.Render.Trace
import Stencil.Proofs.Scope.LoopNames

/-!
The loops around the places of a template while it is rendered. What carries the proof is that the
index variables in scope are bound to the current steps of the loops, innermost first, wherever
rendering leads. Main statement: at every place the names of loops have the values of the innermost
loop, and a section over an array is run for its items.
-/

namespace Stencil

def loopValue? (position length : Nat) (name : String) : Option Json :=
  if name = "@first" ∨ name = "-first" then some (.bool (position = 0))
  else if name = "@last" ∨ name = "-last" then some (.bool (position + 1 = length))
  else if name = "@index" then some (.int position)
  else if name = "-index" then some (.int (position + 1))
  else none

/-- A place in a template while it is rendered: what is in scope, the variables, the loops around it
and what is ahead of it in the body that it is in. -/
structure Place where
  scope : Scope
  names : FreshNames
  bindings : Bindings
  loops : List (Nat × Nat)
  tokens : List LineToken
  instructions : List Instruction

open Compile

/-- Where rendering goes on from a place: behind what it has rendered, or inside of what
comes next. -/
inductive Leads (schema : Schema) : Place → Place → Prop where
  | behind {indent : String} {scope : Scope} {names after last : FreshNames} {bindings : Bindings}
      {loops : List (Nat × Nat)} {front rest : List LineToken} {before more : List Instruction} :
      Derives schema indent scope names front before after →
      Derives schema indent scope after rest more last →
      Leads schema ⟨scope, names, bindings, loops, front ++ rest, before ++ more⟩
        ⟨scope, after, bindings, loops, rest, more⟩
  | openSection {indent : String} {scope inside : Scope} {names after last : FreshNames}
      {bindings inner : Bindings} {loops deeper : List (Nat × Nat)} {t close : LineToken}
      {name : String} {guards : List Guard} {tokens rest : List LineToken}
      {body more : List Instruction} :
      t.tag? = some (.openSection, name) → close.tag? = some (.close, name) →
      scope.meaning schema name .openSection names = .ok (.openSection guards inside, after) →
      Derives schema indent inside after tokens body last →
      Enters bindings loops guards inner deeper →
      Leads schema
        ⟨scope, names, bindings, loops, t :: (tokens ++ close :: rest), nest guards body ++ more⟩
        ⟨inside, after, inner, deeper, tokens, body⟩
  | openInverted {indent : String} {scope inside : Scope} {names after last : FreshNames}
      {bindings : Bindings} {loops : List (Nat × Nat)} {t close : LineToken} {name : String}
      {guard : Guard} {tokens rest : List LineToken} {body more : List Instruction} :
      t.tag? = some (.openInverted, name) → close.tag? = some (.close, name) →
      scope.meaning schema name .openInverted names = .ok (.openInverted guard inside, after) →
      Derives schema indent inside after tokens body last → bindings.passes guard = .ok [] →
      Leads schema
        ⟨scope, names, bindings, loops, t :: (tokens ++ close :: rest),
          .inverted guard body :: more⟩
        ⟨inside, after, bindings, loops, tokens, body⟩
  | block {indent : String} {scope : Scope} {names last : FreshNames} {bindings : Bindings}
      {loops : List (Nat × Nat)} {t close : LineToken} {name : String}
      {tokens rest : List LineToken} {body more : List Instruction} :
      t.tag? = some (.openBlock, name) → close.tag? = some (.close, name) →
      Derives schema indent scope names tokens body last →
      Leads schema
        ⟨scope, names, bindings, loops, t :: (tokens ++ close :: rest), .block name body :: more⟩
        ⟨scope, names, bindings, loops, tokens, body⟩
  | inclusion {indent : String} {scope : Scope} {names last : FreshNames} {bindings : Bindings}
      {loops : List (Nat × Nat)} {t : LineToken} {kind : TagKind} {name included : String}
      {taken tokens rest : List LineToken} {body more : List Instruction} :
      t.tag? = some (kind, name) → kind.isIndented = true →
      Derives schema indent scope names tokens body last →
      Leads schema
        ⟨scope, names, bindings, loops, t :: (taken ++ rest), .inclusion included body :: more⟩
        ⟨scope, names, bindings, loops, tokens, body⟩
  | modelLambda {scope : Scope} {names last : FreshNames} {bindings : Bindings}
      {loops : List (Nat × Nat)} {t : LineToken} {call : LambdaCall} {decl : LambdaDecl}
      {shape : Shape} {taken tokens rest : List LineToken} {body more : List Instruction}
      {value : Json} :
      t.tag? = some (.openSection, call.name) →
      scope.meaning schema call.name .openSection names = .ok (.lambda decl, names) →
      decl.returns = .model shape →
      Derives schema "" (.value ⟨.var (names.fresh "model").1, shape⟩ :: scope)
        (names.fresh "model").2 tokens body last →
      Leads schema
        ⟨scope, names, bindings, loops, t :: (taken ++ rest), .lambda call (some body) :: more⟩
        ⟨.value ⟨.var (names.fresh "model").1, shape⟩ :: scope, (names.fresh "model").2,
          ((names.fresh "model").1, .json value) :: bindings, loops, tokens, body⟩

namespace Place

def start (schema : Schema) (name : String) (data : Json) (context : ContextNode)
    (tokens : List LineToken) (instructions : List Instruction) : Place :=
  ⟨.root schema.root, .root, .root name data context, [], tokens, instructions⟩

/-- That the names of loops have the values of the innermost loop, and that they are names of
something where the schema declares all that it names. -/
def NamesLoops (schema : Schema) (place : Place) : Prop :=
  ∀ position length outer name value, place.loops = (position, length) :: outer →
    loopValue? position length name = some value → ∀ purpose,
      (∀ found, Scope.Refers schema place.scope name purpose found →
        place.bindings.eval found.expr = .ok (.json value)) ∧
      (schema.isWhole = true → ∃ found, Scope.Refers schema place.scope name purpose found)

/-- That what stands in a section over an array is run for its items, each with its position. -/
def RunsLoops (schema : Schema) (place : Place) : Prop :=
  ∀ name guards inside after found value items,
    place.scope.meaning schema name .openSection place.names =
      .ok (.openSection guards inside, after) →
    Scope.Refers schema place.scope name .openSection found → found.shape.isLooped = true →
    place.bindings.eval found.expr = .ok value → value.items? = some items →
    ∃ steps, Runs place.bindings place.loops guards inside items steps ∧
      ∀ (renderer : Renderer) (body : List Instruction),
        renderer.runAll place.bindings (nest guards body) =
          (steps.mapM fun step => renderer.runAll step body).map String.join

end Place

variable {schema : Schema} {scope inside : Scope} {names after last : FreshNames}
  {bindings inner : Bindings} {loops deeper : List (Nat × Nat)} {shape : Shape}

theorem Bindings.eval_loopName {index name : String} {position length : Nat} {value : Json}
    (state : bindings.loopState index = .ok (position, length))
    (valued : loopValue? position length name = some value) :
    ∃ hit, Scope.loopName? index name = some hit ∧ bindings.eval hit.expr = .ok (.json value) := by
  unfold loopValue? at valued
  unfold Scope.loopName?
  repeat' split at valued
  all_goals cases valued
  all_goals
    simp only [*, if_true, if_false]
    exact ⟨_, rfl, by simp [eval, state]⟩

theorem Compile.Derives.extends {indent : String} {tokens : List LineToken}
    {instructions : List Instruction}
    (derives : Derives schema indent scope names tokens instructions last) :
    last.Extends names := by
  induction derives with
  | nil => exact .refl _
  | indent _ _ ih | silent _ _ _ ih | text _ _ ih => exact ih
  | value _ writing means _ ih =>
      obtain ⟨-, -, -, -, rfl⟩ :=
        Scope.meaning_variable (TagKind.purpose_of_writing? writing) means
      exact ih
  | openSection _ _ means _ _ _ ih =>
      rcases Scope.meaning_openSection means with ⟨_, _, _, -, opened, -⟩ | ⟨_, -, same, -⟩
      · exact ih.trans (Scope.extends_sectionOver opened)
      · cases same
  | openInverted _ _ means _ _ _ ih =>
      obtain ⟨_, _, -, opened, -⟩ := Scope.meaning_openInverted means
      exact ih.trans (Scope.extends_guardOver opened)
  | block _ _ _ _ _ ih | inclusion _ _ _ _ _ ih => exact ih
  | rawLambda _ _ _ _ _ _ ih | modelLambda _ _ _ _ _ _ _ _ ih => exact ih

structure Tracks (schema : Schema) (scope : Scope) (names : FreshNames) (bindings : Bindings)
    (loops : List (Nat × Nat)) : Prop where
  covers : names.Covers bindings
  free : ∀ name ∈ loopNames, scope.fixed? name = none
  states : List.Forall₂ (fun index state => bindings.loopState index = .ok state)
    scope.iterations loops
  declared : schema.isWhole = true → scope.IsDeclared schema

namespace Tracks

theorem root (schema : Schema) (name : String) (data : Json) (context : ContextNode) :
    Tracks schema (.root schema.root) .root (.root name data context) [] := by
  refine ⟨Bindings.covers_root name data context, ?_, .nil, ?_⟩
  · intro name member
    exact Scope.fixed?_root_loopName member schema.root
  · intro whole
    exact Scope.isDeclared_root (Schema.isDeclared_root whole)

theorem later (tracks : Tracks schema scope names bindings loops) (more : after.Extends names) :
    Tracks schema scope after bindings loops :=
  ⟨tracks.covers.later more, tracks.free, tracks.states, tracks.declared⟩

theorem extend {more : Bindings} (tracks : Tracks schema scope names bindings loops)
    (covers : after.Covers more) (keeps : FreshNames.Keeps more bindings) :
    Tracks schema scope after more loops :=
  ⟨covers, tracks.free, tracks.states.imp fun _ _ => Bindings.loopState_of_keeps keeps,
    tracks.declared⟩

theorem layer {layer : Layer} (tracks : Tracks schema scope names bindings loops)
    (fixed : Scope.fixed? (layer :: scope) = scope.fixed?)
    (around : Scope.iterations (layer :: scope) = scope.iterations)
    (declared : schema.isWhole = true →
      Scope.LayerHolds (fun found => found.shape.isDeclared schema = true) layer) :
    Tracks schema (layer :: scope) names bindings loops := by
  refine ⟨tracks.covers, ?_, ?_, ?_⟩
  · rw [fixed]
    exact tracks.free
  · rw [around]
    exact tracks.states
  · intro whole
    exact Scope.holds_cons.mpr ⟨declared whole, tracks.declared whole⟩

theorem loop {element index : String} (tracks : Tracks schema scope names bindings loops)
    (loop : names.LoopNames element index after) (value : Value) (position length : Nat) :
    Tracks schema (.iteration index :: scope) after
      (bindings.withStep element value index position length) ((position, length) :: loops) := by
  obtain ⟨covers, keeps, -⟩ := tracks.covers.loop loop value (.step position length)
  have further := tracks.extend covers keeps
  refine ⟨covers, tracks.free, .cons ?_ further.states, ?_⟩
  · simp [Bindings.loopState, Bindings.withStep]
  · intro whole
    refine Scope.holds_cons.mpr ⟨?_, tracks.declared whole⟩
    intro name hit looped
    exact Scope.loopName?_isDeclared schema looped

theorem model (tracks : Tracks schema scope names bindings loops)
    (declared : schema.isWhole = true → shape.isDeclared schema = true) (model : Json) :
    Tracks schema (.value ⟨.var (names.fresh "model").1, shape⟩ :: scope) (names.fresh "model").2
      (((names.fresh "model").1, .json model) :: bindings) loops := by
  have covers := tracks.covers.fresh FreshNames.plainBase_model (Value.json model)
  have keeps := tracks.covers.keeps_fresh FreshNames.plainBase_model (Value.json model)
  exact (tracks.extend covers keeps).layer rfl rfl declared

theorem refers_isDeclared {name : String} {purpose : NameUse} {found : ShapedExpr}
    (tracks : Tracks schema scope names bindings loops)
    (refers : Scope.Refers schema scope name purpose found) (whole : schema.isWhole = true) :
    found.shape.isDeclared schema = true :=
  Scope.holds_refers (Scope.hereditary_isDeclared (Schema.isComplete_of_isWhole whole))
    (tracks.declared whole) refers

theorem element {expr : Expr} (tracks : Tracks schema scope names bindings loops)
    (declared : schema.isWhole = true → shape.isDeclared schema = true) :
    Tracks schema ((Scope.elementLayer expr shape).2 :: scope) names bindings loops := by
  induction shape with
  | optional inner ih => exact ih declared
  | bool | text | number | dynamic | sequence _ | mapping _ | struct _ | enum _ =>
      exact tracks.layer rfl rfl declared

theorem sectionOver {expr : Expr} {guards : List Guard}
    (tracks : Tracks schema scope names bindings loops)
    (declared : schema.isWhole = true → shape.isDeclared schema = true)
    (opened : Scope.sectionOver schema scope expr names shape = .ok (guards, inside, after))
    (enters : Enters bindings loops guards inner deeper) :
    Tracks schema inside after inner deeper := by
  -- Only the guard of a loop binds variables; those in front of it and of its element are tests.
  induction shape generalizing guards with
  | bool =>
      obtain ⟨rfl, rfl, rfl⟩ := Scope.sectionOver_bool opened
      cases enters.of_test rfl
      exact tracks.layer rfl rfl declared
  | optional shape ih =>
      obtain ⟨within, opens, rfl⟩ := Scope.sectionOver_optional opened
      exact ih declared opens enters.of_addPresent
  | sequence shape =>
      obtain ⟨element, index, loop, rfl, rfl⟩ := Scope.sectionOver_sequence opened
      obtain ⟨value, position, length, enters⟩ := enters.of_loop (.inl rfl)
      obtain ⟨rfl, rfl⟩ := enters.of_element
      exact (tracks.loop loop value position length).element declared
  | dynamic =>
      obtain ⟨element, index, loop, rfl, rfl⟩ := Scope.sectionOver_dynamic opened
      obtain ⟨value, position, length, enters⟩ := enters.of_loop (.inr rfl)
      cases enters
      exact (tracks.loop loop value position length).layer rfl rfl declared
  | struct _ | text | number | mapping _ | enum _ =>
      obtain ⟨rfl, rfl, rfl⟩ := Scope.sectionOver_single rfl opened
      cases enters.of_test rfl
      exact tracks.layer rfl rfl declared

theorem leads {place next : Place}
    (tracks : Tracks schema place.scope place.names place.bindings place.loops)
    (leads : Leads schema place next) :
    Tracks schema next.scope next.names next.bindings next.loops := by
  cases leads with
  | behind derives _ => exact tracks.later derives.extends
  | openSection _ _ means _ enters =>
      rcases Scope.meaning_openSection means with
        ⟨found, _, _, refers, opened, same⟩ | ⟨_, -, same, -⟩
      · cases same
        exact tracks.sectionOver (tracks.refers_isDeclared refers) opened enters
      · cases same
  | openInverted _ _ means _ _ =>
      obtain ⟨found, _, refers, opened, same⟩ := Scope.meaning_openInverted means
      cases same
      exact (tracks.later (Scope.extends_guardOver opened)).layer rfl rfl fun _ => trivial
  | block _ _ _ | inclusion _ _ _ => exact tracks
  | modelLambda _ means returns _ =>
      exact tracks.model (Schema.isDeclared_of_model · (Scope.meaning_lambda means) returns) _

/-- What a whole rendering preserves. -/
theorem reaches {place last : Place}
    (tracks : Tracks schema place.scope place.names place.bindings place.loops)
    (reaches : Relation.ReflTransGen (Leads schema) place last) :
    Tracks schema last.scope last.names last.bindings last.loops := by
  induction reaches with
  | refl => exact tracks
  | tail _ leads ih => exact ih.leads leads

theorem namesLoops {place : Place} (omits : schema.omitsLoopNames = true)
    (tracks : Tracks schema place.scope place.names place.bindings place.loops) :
    place.NamesLoops schema := by
  intro position length outer name value looped valued purpose
  -- The innermost index variable in scope is bound to the state of the innermost loop.
  obtain ⟨index, rest, state, -, innermost⟩ :=
    List.forall₂_cons_right_iff.mp (looped ▸ tracks.states)
  obtain ⟨hit, named, evaluated⟩ := Bindings.eval_loopName state valued
  have free := tracks.free name (Scope.mem_loopNames named)
  constructor
  · intro found refers
    cases Scope.eq_of_refers_loopName omits innermost named free refers
    exact evaluated
  · intro whole
    exact ⟨hit, Scope.refers_loopName omits (tracks.declared whole) innermost named free purpose⟩

end Tracks

theorem Place.runsLoops (schema : Schema) (place : Place) : place.RunsLoops schema := by
  intro name guards inside after found value items means refers looped evaluated array
  rcases Scope.meaning_openSection means with
    ⟨other, _, _, refersOther, opened, same⟩ | ⟨_, -, same, -⟩
  · cases same
    cases Scope.refers_unique refers refersOther
    obtain ⟨steps, runs⟩ := Runs.of_section opened looped evaluated array
    exact ⟨steps, runs, fun renderer body => renderer.runAll_nest runs.passes body⟩
  · cases same

/-- What is run at a place: what comes next there, or a guard on the way into a section
that does. -/
inductive Place.Visits (place : Place) : Visit → Prop where
  | next {instruction : Instruction} {more : List Instruction} :
      place.instructions = instruction :: more → Visits place ⟨place.bindings, instruction⟩
  | guard {front back : List Guard} {guard : Guard} {body more : List Instruction}
      {bound : Bindings} {deeper : List (Nat × Nat)} :
      place.instructions = nest (front ++ guard :: back) body ++ more →
      Enters place.bindings place.loops front bound deeper →
      Visits place ⟨bound, .conditional guard (nest back body)⟩

section

variable {renderer : Renderer} {visit : Visit}

open Renderer

theorem visits_nest {guards : List Guard} {body : List Instruction} (bindings : Bindings)
    (loops : List (Nat × Nat))
    (member : visit ∈ (renderer.traceAll bindings (nest guards body)).visits) :
    (∃ front guard back bound deeper, guards = front ++ guard :: back ∧
      Enters bindings loops front bound deeper ∧
        visit = ⟨bound, .conditional guard (nest back body)⟩) ∨
      ∃ inner deeper, Enters bindings loops guards inner deeper ∧
        visit ∈ (renderer.traceAll inner body).visits := by
  induction guards generalizing bindings loops with
  | nil => exact .inr ⟨bindings, loops, .body, member⟩
  | cons guard guards ih =>
      obtain here | ⟨-, nothing⟩ := mem_visits_traceAll_cons.mp member
      · obtain rfl | ⟨step, body, runs, inside⟩ := mem_visits_trace here
        · exact .inl ⟨[], guard, guards, bindings, loops, rfl, .body, rfl⟩
        cases runs with
        | @conditional _ _ steps _ passes within =>
            obtain ⟨position, hit⟩ := List.mem_iff_getElem?.mp within
            obtain ⟨front, next, back, bound, deeper, rfl, enters, same⟩ |
              ⟨inner, deeper, enters, inside⟩ :=
              ih step (guard.loops position steps.length loops) inside
            · exact .inl ⟨guard :: front, next, back, bound, deeper, rfl, .guard passes hit enters,
                same⟩
            · exact .inr ⟨inner, deeper, .guard passes hit enters, inside⟩
      · cases nothing

theorem exists_place_behind {indent : String} {front rest : List LineToken}
    {before more : List Instruction}
    (first : Derives schema indent scope names front before after)
    (derives : Derives schema indent scope after rest more last)
    (found : ∃ place, Relation.ReflTransGen (Leads schema)
      ⟨scope, after, bindings, loops, rest, more⟩ place ∧ place.Visits visit) :
    ∃ place, Relation.ReflTransGen (Leads schema)
      ⟨scope, names, bindings, loops, front ++ rest, before ++ more⟩ place ∧
        place.Visits visit := by
  obtain ⟨place, reaches, visits⟩ := found
  exact ⟨place, reaches.head (.behind first derives), visits⟩

theorem exists_place_cons {tokens : List LineToken} {instruction : Instruction}
    {more : List Instruction}
    (inside : ∀ inner body, renderer.RunsBody bindings instruction inner body →
      visit ∈ (renderer.traceAll inner body).visits → ∃ place, Relation.ReflTransGen (Leads schema)
        ⟨scope, names, bindings, loops, tokens, instruction :: more⟩ place ∧ place.Visits visit)
    (behind : visit ∈ (renderer.traceAll bindings more).visits →
      ∃ place, Relation.ReflTransGen (Leads schema)
        ⟨scope, names, bindings, loops, tokens, instruction :: more⟩ place ∧ place.Visits visit)
    (member : visit ∈ (renderer.traceAll bindings (instruction :: more)).visits) :
    ∃ place, Relation.ReflTransGen (Leads schema)
      ⟨scope, names, bindings, loops, tokens, instruction :: more⟩ place ∧ place.Visits visit := by
  obtain here | ⟨-, later⟩ := mem_visits_traceAll_cons.mp member
  · obtain rfl | ⟨inner, body, runs, within⟩ := mem_visits_trace here
    · exact ⟨_, .refl, .next rfl⟩
    · exact inside inner body runs within
  · exact behind later

/-- All that is run of a template is run at a place where its rendering leads. -/
theorem exists_place_of_visit {indent : String} {tokens : List LineToken}
    {instructions : List Instruction} (bindings : Bindings) (loops : List (Nat × Nat))
    (derives : Derives schema indent scope names tokens instructions last)
    (member : visit ∈ (renderer.traceAll bindings instructions).visits) :
    ∃ place, Relation.ReflTransGen (Leads schema)
      ⟨scope, names, bindings, loops, tokens, instructions⟩ place ∧ place.Visits visit := by
  induction derives generalizing bindings loops with
  | nil => cases member
  | silent plain empty derives ih =>
      exact exists_place_behind (.silent plain empty .nil) derives (ih bindings loops member)
  | openSection tag close means inner derives ihInner ih =>
      obtain here | later := mem_visits_traceAll_append member
      · obtain ⟨front, guard, back, bound, deeper, rfl, enters, rfl⟩ |
          ⟨step, deeper, enters, within⟩ := visits_nest bindings loops here
        · exact ⟨_, .refl, .guard rfl enters⟩
        · obtain ⟨place, reaches, visits⟩ := ihInner step deeper within
          exact ⟨place, reaches.head (.openSection tag close means inner enters), visits⟩
      · simpa using exists_place_behind (.openSection tag close means inner .nil) derives
          (ih bindings loops later)
  | indent filled derives ih =>
      refine exists_place_cons ?_ (fun later => ?_) member
      · rintro _ _ ⟨⟩
      · exact exists_place_behind (.indent filled .nil) derives (ih bindings loops later)
  | text plain derives ih =>
      refine exists_place_cons ?_ (fun later => ?_) member
      · rintro _ _ ⟨⟩
      · exact exists_place_behind (.text plain .nil) derives (ih bindings loops later)
  | value tag writing means derives ih =>
      refine exists_place_cons ?_ (fun later => ?_) member
      · rintro _ _ ⟨⟩
      · exact exists_place_behind (.value tag writing means .nil) derives (ih bindings loops later)
  | openInverted tag close means inner derives ihInner ih =>
      refine exists_place_cons ?_ (fun later => ?_) member
      · intro step body runs within
        cases runs with
        | inverted passes =>
            obtain ⟨place, reaches, visits⟩ := ihInner bindings loops within
            exact ⟨place, reaches.head (.openInverted tag close means inner passes), visits⟩
      · simpa using exists_place_behind (.openInverted tag close means inner .nil) derives
          (ih bindings loops later)
  | block tag close inner derives ihInner ih =>
      refine exists_place_cons ?_ (fun later => ?_) member
      · rintro _ _ ⟨⟩ within
        obtain ⟨place, reaches, visits⟩ := ihInner bindings loops within
        exact ⟨place, reaches.head (.block tag close inner), visits⟩
      · simpa using exists_place_behind (.block tag close inner .nil) derives
          (ih bindings loops later)
  | @inclusion _ _ _ _ _ _ _ _ _ included taken _ _ _ _ tag indented inner derives ihInner ih =>
      refine exists_place_cons ?_ (fun later => ?_) member
      · rintro _ _ ⟨⟩ within
        obtain ⟨place, reaches, visits⟩ := ihInner bindings loops within
        exact ⟨place, reaches.head (.inclusion tag indented inner), visits⟩
      · simpa using exists_place_behind
          (show Derives schema _ _ _ (_ :: (taken ++ [])) [.inclusion included _] _ from
            .inclusion tag indented inner .nil) derives (ih bindings loops later)
  | @rawLambda _ _ _ _ _ _ _ taken _ _ tag means returns kind current derives ih =>
      refine exists_place_cons ?_ (fun later => ?_) member
      · rintro _ _ ⟨⟩
      · simpa using exists_place_behind
          (show Derives schema _ _ _ (_ :: (taken ++ [])) _ _ from
            .rawLambda tag means returns kind current .nil) derives (ih bindings loops later)
  | @modelLambda _ _ _ _ _ _ _ _ _ taken _ _ _ _ tag means returns kind current inner derives
      ihInner ih =>
      refine exists_place_cons ?_ (fun later => ?_) member
      · intro step body runs within
        cases runs with
        | lambda _ _ _ named =>
            cases kind.symm.trans named
            obtain ⟨place, reaches, visits⟩ := ihInner _ loops within
            exact ⟨place, reaches.head (.modelLambda tag means returns inner), visits⟩
      · simpa using exists_place_behind
          (show Derives schema _ _ _ (_ :: (taken ++ [])) _ _ from
            .modelLambda tag means returns kind current inner .nil) derives
          (ih bindings loops later)

end

namespace Program

/-- That wherever the rendering of a template leads, the names of loops have the values of the
innermost loop, and what stands in a section over an array is run for its items. All that is run is
run at such a place. -/
def KeepsLoops (schema : Schema) (template : Template) (data : Json) (context : ContextNode)
    (program : Program) : Prop :=
  ∃ tokens instructions last, tokenize template.name template.source = .ok tokens ∧
    Derives schema "" (.root schema.root) .root (LineClassifier.groupsOf tokens).flatten
      instructions last ∧
    (∀ renderer : Renderer, renderer.render program data context =
      renderer.runAll (.root template.name data context) instructions) ∧
    (∀ renderer : Renderer,
      (renderer.traceAll (.root template.name data context) instructions).outcome =
        renderer.render program data context ∧
      ∀ visit ∈ (renderer.traceAll (.root template.name data context) instructions).visits,
        ∃ place, Relation.ReflTransGen (Leads schema)
          (.start schema template.name data context (LineClassifier.groupsOf tokens).flatten
            instructions) place ∧ place.Visits visit) ∧
    ∀ place, Relation.ReflTransGen (Leads schema)
        (.start schema template.name data context (LineClassifier.groupsOf tokens).flatten
          instructions) place →
      place.NamesLoops schema ∧ place.RunsLoops schema

/-- Loops over typed and over dynamic data are the same, where no field and no variant is called
like a name of loops. -/
theorem compile_keepsLoops {schema : Schema} {library : Library} {options : Options}
    {template : Template} {program : Program} (omits : schema.omitsLoopNames = true)
    (compiled : Program.compile schema library options template = .ok program) (data : Json)
    (context : ContextNode) : program.KeepsLoops schema template data context := by
  obtain ⟨lines, instructions, last, grouped, derives, rfl⟩ := compile_derives compiled
  obtain ⟨tokens, read, rfl⟩ := groups_root grouped
  have same (renderer : Renderer) := renderer.runAll_joined (.root template.name data context)
    instructions
  refine ⟨tokens, instructions, last, read, derives, same, ?_, ?_⟩
  · intro renderer
    refine ⟨(renderer.outcome_traceAll _ instructions).trans (same renderer).symm, ?_⟩
    intro visit visited
    exact exists_place_of_visit _ [] derives visited
  · intro place reaches
    have tracks := Tracks.reaches (.root schema template.name data context) reaches
    exact ⟨tracks.namesLoops omits, place.runsLoops schema⟩

/-- Numbered rows of numbered texts, with the name of the outer loop behind the inner one. -/
theorem compile_keepsLoops_rows :
    let schema := Schema.ofRoot (.sequence (.sequence .text))
    let template : Template :=
      ⟨"rows", "{{#.}}{{-index}}:{{#.}} {{-index}}{{.}}{{/.}}{{^@last}}; {{/@last}}{{/.}}"⟩
    let data := Json.array [.array [.string "a", .string "b"], .array [.string "c"]]
    ∃ program, Program.compile schema (.ofCatalog []) .default template = .ok program ∧
      Renderer.plain.render program data .empty = .ok "1: 1a 2b; 2: 1c" ∧
      program.KeepsLoops schema template data .empty := by
  intro schema template data
  have compiles : (Program.compile schema (.ofCatalog []) .default template).map
      (fun program => (Renderer.plain.render program data .empty).toOption) =
      .ok (some "1: 1a 2b; 2: 1c") := by decide +kernel
  obtain ⟨program, compiled, rendered⟩ := map_eq_ok.mp compiles
  exact ⟨program, compiled, eq_ok_of_toOption rendered,
    compile_keepsLoops (by decide +kernel) compiled data .empty⟩

-- The same rows where the schema says nothing of the data.
example : (Renderer.plain.renderTemplate .dynamic (.ofCatalog []) .default
    ⟨"rows", "{{#.}}{{-index}}:{{#.}} {{-index}}{{.}}{{/.}}{{^@last}}; {{/@last}}{{/.}}"⟩
    (.array [.array [.string "a", .string "b"], .array [.string "c"]]) .empty).toOption =
    some "1: 1a 2b; 2: 1c" := by
  decide +kernel

end Program

end Stencil
