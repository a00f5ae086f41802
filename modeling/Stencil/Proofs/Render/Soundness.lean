import Stencil.Proofs.Compile.Shaped
import Stencil.Proofs.Render.Bindings
import Stencil.Proofs.Render.Trace
import Stencil.Proofs.Render.Values

/-!
Soundness of shapes: where the data conforms to the schema, every expression has a value that
conforms to its static shape. Main statement: a compiled program renders whatever conforms, and
writes scalars.
-/

namespace Stencil

variable {schema : Schema} {slots inside : Slots} {bindings : Bindings} {shape : Shape}

def Slot.Holds (schema : Schema) : Slot → Value → Prop
  | value shape, bound => bound.Fits schema shape
  | step, bound => ∃ position length, bound = .step position length

namespace Bindings

/-- An expression has a value, which conforms to its shape. -/
theorem eval_fits {expr : Expr} (agrees : Match (Slot.Holds schema) slots bindings)
    (shaped : expr.shape? schema slots = some shape) :
    ∃ value, bindings.eval expr = .ok value ∧ value.Fits schema shape := by
  induction expr generalizing shape with
  | var name =>
      simp only [Expr.shape?] at shaped
      split at shaped
      · next found known =>
          cases shaped
          obtain ⟨value, bound, fits⟩ := agrees _ _ known
          exact ⟨value, by simp [eval, bound], fits⟩
      · cases shaped
  | field base name ih =>
      simp only [Expr.shape?] at shaped
      split at shaped
      · next structName core =>
          obtain ⟨whole, known, struct⟩ := Option.map_eq_some_iff.mp core
          obtain ⟨decl, declared, given⟩ := Option.bind_eq_some_iff.mp shaped
          obtain ⟨value, found, fits⟩ := ih known
          exact ⟨value.part name, by simp [eval, found], fits.field struct declared given⟩
      · cases shaped
  | key base name ih =>
      simp only [Expr.shape?] at shaped
      split at shaped
      · next element core =>
          cases shaped
          obtain ⟨whole, known, mapping⟩ := Option.map_eq_some_iff.mp core
          obtain ⟨value, found, fits⟩ := ih known
          exact ⟨value.part name, by simp [eval, found], fits.entry mapping name⟩
      · cases shaped
  | nodeChild base name ih | nodeSearch base name ih =>
      simp only [Expr.shape?] at shaped
      split at shaped
      · next core =>
          cases shaped
          obtain ⟨whole, known, -⟩ := Option.map_eq_some_iff.mp core
          obtain ⟨value, found, -⟩ := ih known
          obtain ⟨node, made⟩ := value.toNode_ok
          exact ⟨.node _, by simp only [eval, found, made, ok_bind, pure_eq_ok]; rfl, rfl⟩
      · cases shaped
  | first loop | last loop =>
      simp only [Expr.shape?, Option.ite_none_right_eq_some, Option.some.injEq] at shaped
      obtain ⟨known, rfl⟩ := shaped
      obtain ⟨position, length, found⟩ := agrees.loopState known fun _ step => step
      exact ⟨.json (.bool _), by simp only [eval, found, ok_bind, pure_eq_ok]; rfl, .bool⟩
  | index loop oneBased =>
      simp only [Expr.shape?, Option.ite_none_right_eq_some, Option.some.injEq] at shaped
      obtain ⟨known, rfl⟩ := shaped
      obtain ⟨position, length, found⟩ := agrees.loopState known fun _ step => step
      exact ⟨.json (.int _), by simp only [eval, found, ok_bind, pure_eq_ok]; rfl, .int⟩
  | is base variant ih =>
      simp only [Expr.shape?] at shaped
      split at shaped
      · next enumName core =>
          cases shaped
          obtain ⟨whole, known, -⟩ := Option.map_eq_some_iff.mp core
          obtain ⟨value, found, -⟩ := ih known
          exact ⟨.json (.bool _), by simp only [eval, found, ok_bind, pure_eq_ok]; rfl, .bool⟩
      · cases shaped

theorem sequence_fits {expr : Expr} {element : Shape}
    (agrees : Match (Slot.Holds schema) slots bindings)
    (shaped : expr.shape? schema slots = some shape) (sequence : shape.core = .sequence element) :
    ∃ items, bindings.sequence expr = .ok items ∧
      ∀ item ∈ items, Conforms schema item element := by
  obtain ⟨value, found, fits⟩ := eval_fits agrees shaped
  cases value with
  | json value =>
      rcases Conforms.items fits sequence with rfl | ⟨items, rfl, each⟩
      · exact ⟨[], by simp [Bindings.sequence, found], by simp⟩
      · exact ⟨items, by simp [Bindings.sequence, found], each⟩
  | missing => exact ⟨[], by simp [Bindings.sequence, found], by simp⟩
  | node node =>
      simp only [Value.Fits, sequence] at fits
      cases fits
  | step position length => cases fits

theorem passes_fits {guard : Guard} (agrees : Match (Slot.Holds schema) slots bindings)
    (passed : guard.slots? schema slots = some inside) :
    ∃ inners, bindings.passes guard = .ok inners ∧
      ∀ inner ∈ inners, Match (Slot.Holds schema) inside inner := by
  cases guard with
  | truthy expr | present expr =>
      obtain ⟨shape, shaped, rfl⟩ := Option.map_eq_some_iff.mp passed
      obtain ⟨value, found, -⟩ := eval_fits agrees shaped
      refine ⟨_, by simp only [passes, found, ok_bind, pure_eq_ok]; rfl, ?_⟩
      intro inner member
      split at member
      · cases List.mem_singleton.mp member
        exact agrees
      · cases member
  | each items element index =>
      simp only [Guard.slots?] at passed
      split at passed
      · next shape core =>
          cases passed
          obtain ⟨whole, shaped, sequence⟩ := Option.map_eq_some_iff.mp core
          obtain ⟨values, found, each⟩ := sequence_fits agrees shaped sequence
          refine ⟨_, by simp only [passes, found, ok_bind, pure_eq_ok]; rfl, ?_⟩
          intro inner member
          refine agrees.loop (fun position length => ⟨position, length, rfl⟩) ?_ member
          intro value item
          obtain ⟨json, origin, rfl⟩ := List.mem_map.mp item
          exact each json origin
      · cases passed
  | eachNode node element index =>
      simp only [Guard.slots?] at passed
      split at passed
      · next core =>
          cases passed
          obtain ⟨whole, shaped, -⟩ := Option.map_eq_some_iff.mp core
          obtain ⟨value, found, -⟩ := eval_fits agrees shaped
          obtain ⟨made, node⟩ := value.toNode_ok
          refine ⟨_, by simp only [passes, nodeSteps, found, node, ok_bind, pure_eq_ok]; rfl, ?_⟩
          intro inner member
          refine agrees.loop (fun position length => ⟨position, length, rfl⟩) ?_ member
          intro value item
          obtain ⟨child, -, rfl⟩ := List.mem_map.mp item
          exact rfl
      · cases passed

end Bindings

mutual

def Instruction.lambdaNames : Instruction → List String
  | .literal _ | .value _ _ => []
  | .conditional _ body | .inverted _ body | .inclusion _ body | .block _ body =>
      allLambdaNames body
  | .lambda call none => [call.name]
  | .lambda call (some body) => call.name :: allLambdaNames body

def allLambdaNames : List Instruction → List String
  | [] => []
  | instruction :: rest => instruction.lambdaNames ++ allLambdaNames rest

end

def Program.lambdaNames (program : Program) : List String := allLambdaNames program.instructions

/-- That a lambda answers as it is declared to: with text, or with a model that conforms. -/
def LambdaAnswer.Meets (schema : Schema) (decl : LambdaDecl) : LambdaAnswer → Prop
  | .raw _ => True
  | .model value => ∃ shape, decl.returns = .model shape ∧ Conforms schema value shape

/-- That lambdas are registered, and answer as they are declared to. -/
def Renderer.Serves (schema : Schema) (renderer : Renderer) (names : List String) : Prop :=
  ∀ name ∈ names, ∃ lambda, renderer.lambdas.get? name = some lambda ∧
    ∀ decl, schema.lambdas.get? name = some decl →
      ∀ text current, (lambda text current).Meets schema decl

namespace Renderer

variable {renderer : Renderer}

theorem Serves.append {first second : List String} :
    renderer.Serves schema (first ++ second) ↔
      renderer.Serves schema first ∧ renderer.Serves schema second :=
  List.forall_mem_append

theorem Serves.cons {name : String} {names : List String} :
    renderer.Serves schema (name :: names) ↔
      renderer.Serves schema [name] ∧ renderer.Serves schema names :=
  @Serves.append schema renderer [name] names

theorem lambdaOutput_ok {call : LambdaCall} {decl : LambdaDecl}
    {template? : Option (Bindings → Except RenderError String)}
    (agrees : Bindings.Match (Slot.Holds schema) slots bindings)
    (serves : renderer.Serves schema [call.name])
    (current : (call.current.shape? schema slots).isSome)
    (declared : schema.lambdas.get? call.name = some decl)
    (template : ∀ shape, decl.returns = .model shape → ∃ variableName template,
      call.kind = .model variableName ∧ template? = some template ∧
        ∀ value, Conforms schema value shape →
          ∃ text, template ((variableName, .json value) :: bindings) = .ok text) :
    ∃ text, renderer.lambdaOutput bindings call template? = .ok text := by
  obtain ⟨shape, shaped⟩ := Option.isSome_iff_exists.mp current
  obtain ⟨lambda, registered, answers⟩ := serves call.name (by simp)
  obtain ⟨around, found, -⟩ := Bindings.eval_fits agrees shaped
  have meets := answers decl declared call.body around.toJson
  unfold lambdaOutput
  simp only [registered, found, ok_bind]
  cases answer : lambda call.body around.toJson with
  | raw text => exact ⟨_, rfl⟩
  | model value =>
      rw [answer] at meets
      obtain ⟨shape, returns, conforms⟩ := meets
      obtain ⟨variableName, body, kind, rfl, fits⟩ := template shape returns
      obtain ⟨text, written⟩ := fits value conforms
      simp only [kind, written, ok_bind]
      exact ⟨_, rfl⟩

mutual

theorem run_ok (slots : Slots) (bindings : Bindings) (instruction : Instruction)
    (agrees : Bindings.Match (Slot.Holds schema) slots bindings)
    (shaped : instruction.Shaped schema slots)
    (serves : renderer.Serves schema instruction.lambdaNames) :
    ∃ text, renderer.run bindings instruction = .ok text := by
  cases instruction with
  | literal text => exact ⟨text, rfl⟩
  | value expr escaping =>
      obtain ⟨shape, shaped, -⟩ := shaped
      obtain ⟨value, found, -⟩ := Bindings.eval_fits agrees shaped
      exact ⟨_, by simp only [run, found, ok_bind]; rfl⟩
  | conditional guard body =>
      obtain ⟨inside, passed, body⟩ := shaped
      obtain ⟨inners, found, each⟩ := Bindings.passes_fits agrees passed
      obtain ⟨texts, written⟩ := exists_mapM_ok fun inner member =>
        runAll_ok inside inner _ (each inner member) body serves
      exact ⟨_, by simp only [run, found, written, ok_bind]; rfl⟩
  | inverted guard body =>
      obtain ⟨passes, body⟩ := shaped
      obtain ⟨inside, passed⟩ := Option.isSome_iff_exists.mp passes
      obtain ⟨inners, found, -⟩ := Bindings.passes_fits agrees passed
      simp only [run, found, ok_bind]
      split
      · exact runAll_ok slots bindings _ agrees body serves
      · exact ⟨"", rfl⟩
  | inclusion name body | block name body =>
      exact runAll_ok slots bindings body agrees shaped serves
  | lambda call template =>
      cases template with
      | none =>
          obtain ⟨current, decl, declared, returns⟩ := shaped
          refine lambdaOutput_ok agrees serves current declared ?_
          intro shape model
          rw [returns] at model
          cases model
      | some body =>
          obtain ⟨current, decl, shape, variableName, declared, returns, kind, body⟩ := shaped
          obtain ⟨called, nested⟩ := Serves.cons.mp serves
          refine lambdaOutput_ok agrees called current declared ?_
          intro other model
          rw [returns] at model
          cases model
          refine ⟨variableName, _, kind, rfl, ?_⟩
          intro value conforms
          have bound : Slot.Holds schema (.value shape) (.json value) := conforms
          exact runAll_ok _ _ _ (agrees.cons bound) body nested

theorem runAll_ok (slots : Slots) (bindings : Bindings) (instructions : List Instruction)
    (agrees : Bindings.Match (Slot.Holds schema) slots bindings)
    (shaped : AllShaped schema slots instructions)
    (serves : renderer.Serves schema (allLambdaNames instructions)) :
    ∃ text, renderer.runAll bindings instructions = .ok text := by
  cases instructions with
  | nil => exact ⟨"", rfl⟩
  | cons instruction rest =>
      obtain ⟨servesHead, servesTail⟩ := Serves.append.mp serves
      obtain ⟨text, head⟩ := run_ok slots bindings instruction agrees shaped.1 servesHead
      obtain ⟨more, tail⟩ := runAll_ok slots bindings rest agrees shaped.2 servesTail
      exact ⟨_, by simp only [runAll, head, tail, ok_bind]; rfl⟩

end

end Renderer

/-- The places at which instructions write a value when they are run: what is known of the variables
there, what they are bound to, and the expression that is written. -/
inductive WritesValue (schema : Schema) (renderer : Renderer) :
    Slots → Bindings → List Instruction → Slots → Bindings → Expr → Prop where
  | value {slots : Slots} {bindings : Bindings} {expr : Expr} {escaping : Escaping}
      {rest : List Instruction} :
      WritesValue schema renderer slots bindings (.value expr escaping :: rest) slots bindings expr
  | later {slots inner : Slots} {bindings bound : Bindings} {expr : Expr}
      {instruction : Instruction} {rest : List Instruction} :
      WritesValue schema renderer slots bindings rest inner bound expr →
      WritesValue schema renderer slots bindings (instruction :: rest) inner bound expr
  | conditional {slots inside inner : Slots} {bindings step bound : Bindings} {expr : Expr}
      {guard : Guard} {steps : List Bindings} {body rest : List Instruction} :
      guard.slots? schema slots = some inside → bindings.passes guard = .ok steps → step ∈ steps →
      WritesValue schema renderer inside step body inner bound expr →
      WritesValue schema renderer slots bindings (.conditional guard body :: rest) inner bound expr
  | inverted {slots inner : Slots} {bindings bound : Bindings} {expr : Expr} {guard : Guard}
      {body rest : List Instruction} : bindings.passes guard = .ok [] →
      WritesValue schema renderer slots bindings body inner bound expr →
      WritesValue schema renderer slots bindings (.inverted guard body :: rest) inner bound expr
  | inclusion {slots inner : Slots} {bindings bound : Bindings} {expr : Expr} {name : String}
      {body rest : List Instruction} :
      WritesValue schema renderer slots bindings body inner bound expr →
      WritesValue schema renderer slots bindings (.inclusion name body :: rest) inner bound expr
  | block {slots inner : Slots} {bindings bound : Bindings} {expr : Expr} {name : String}
      {body rest : List Instruction} :
      WritesValue schema renderer slots bindings body inner bound expr →
      WritesValue schema renderer slots bindings (.block name body :: rest) inner bound expr
  | lambda {slots inner : Slots} {bindings bound : Bindings} {expr : Expr} {call : LambdaCall}
      {decl : LambdaDecl} {shape : Shape} {variableName : String} {lambda : Lambda}
      {current : Value} {value : Json} {body rest : List Instruction} :
      schema.lambdas.get? call.name = some decl → decl.returns = .model shape →
      call.kind = .model variableName → renderer.lambdas.get? call.name = some lambda →
      bindings.eval call.current = .ok current →
      lambda call.body current.toJson = .model value →
      WritesValue schema renderer ((variableName, .value shape) :: slots)
        ((variableName, .json value) :: bindings) body inner bound expr →
      WritesValue schema renderer slots bindings (.lambda call (some body) :: rest) inner bound expr

theorem WritesValue.shaped {renderer : Renderer} {instructions : List Instruction} {inner : Slots}
    {bound : Bindings} {expr : Expr}
    (writes : WritesValue schema renderer slots bindings instructions inner bound expr)
    (agrees : Bindings.Match (Slot.Holds schema) slots bindings)
    (shaped : AllShaped schema slots instructions)
    (serves : renderer.Serves schema (allLambdaNames instructions)) :
    Bindings.Match (Slot.Holds schema) inner bound ∧
      ∃ shape, expr.shape? schema inner = some shape ∧ shape.isWritable = true := by
  induction writes with
  | value => exact ⟨agrees, shaped.1⟩
  | later _ ih => exact ih agrees shaped.2 (Renderer.Serves.append.mp serves).2
  | conditional known passes member _ ih =>
      -- The step that was taken is one of those the guard is known to bind rightly.
      obtain ⟨inside, passed, body⟩ := shaped.1
      obtain ⟨inners, found, each⟩ := Bindings.passes_fits agrees passed
      rw [known, Option.some.injEq] at passed
      rw [passes, Except.ok.injEq] at found
      subst passed found
      exact ih (each _ member) body (Renderer.Serves.append.mp serves).1
  | inverted _ _ ih => exact ih agrees shaped.1.2 (Renderer.Serves.append.mp serves).1
  | inclusion _ ih | block _ ih => exact ih agrees shaped.1 (Renderer.Serves.append.mp serves).1
  | @lambda _ _ _ _ _ call _ shape variableName _ _ value _ _ declared returns kind registered
      found answer _ ih =>
      obtain ⟨-, decl, model, name, given, result, sort, body⟩ := shaped.1
      obtain ⟨called, nested⟩ :=
        Renderer.Serves.cons.mp (Renderer.Serves.append.mp serves).1
      rw [declared, Option.some.injEq] at given
      subst given
      rw [returns, LambdaResult.model.injEq] at result
      rw [kind, LambdaKind.model.injEq] at sort
      subst result sort
      obtain ⟨lambda, same, answers⟩ := called call.name (by simp)
      rw [registered, Option.some.injEq] at same
      subst same
      have meets := answers _ declared
      obtain ⟨other, same, conforms⟩ := answer ▸ meets call.body _
      rw [returns, LambdaResult.model.injEq] at same
      subst same
      have bound : Slot.Holds schema (.value shape) (.json value) := conforms
      exact ih (agrees.cons bound) body nested

namespace Renderer

mutual

theorem writesValue_of_mem_trace {renderer : Renderer} (slots : Slots) (bindings : Bindings)
    (instruction : Instruction) (rest : List Instruction) {bound : Bindings} {expr : Expr}
    {escaping : Escaping} (shaped : instruction.Shaped schema slots)
    (member : ⟨bound, .value expr escaping⟩ ∈ (renderer.trace bindings instruction).visits) :
    ∃ inner, WritesValue schema renderer slots bindings (instruction :: rest) inner bound expr := by
  obtain same | ⟨step, body, runs, there⟩ := mem_visits_trace member
  · cases same
    exact ⟨slots, .value⟩
  cases instruction with
  | literal text | value expr escaping => cases runs
  | conditional guard body =>
      cases runs with
      | conditional passes within =>
          obtain ⟨inside, passed, shaped⟩ := shaped
          obtain ⟨inner, writes⟩ := writesValue_of_mem_traceAll inside step body shaped there
          exact ⟨inner, .conditional passed passes within writes⟩
  | inverted guard body =>
      cases runs with
      | inverted passes =>
          obtain ⟨inner, writes⟩ := writesValue_of_mem_traceAll slots bindings body shaped.2 there
          exact ⟨inner, .inverted passes writes⟩
  | inclusion name body =>
      cases runs
      obtain ⟨inner, writes⟩ := writesValue_of_mem_traceAll slots bindings body shaped there
      exact ⟨inner, .inclusion writes⟩
  | block name body =>
      cases runs
      obtain ⟨inner, writes⟩ := writesValue_of_mem_traceAll slots bindings body shaped there
      exact ⟨inner, .block writes⟩
  | lambda call template =>
      cases template with
      | none => cases runs
      | some body =>
          cases runs with
          | lambda registered found answer kind =>
              obtain ⟨-, decl, shape, name, declared, returns, sort, shaped⟩ := shaped
              cases kind.symm.trans sort
              obtain ⟨inner, writes⟩ := writesValue_of_mem_traceAll _ _ body shaped there
              exact ⟨inner, .lambda declared returns kind registered found answer writes⟩

theorem writesValue_of_mem_traceAll {renderer : Renderer} (slots : Slots) (bindings : Bindings)
    (instructions : List Instruction) {bound : Bindings} {expr : Expr} {escaping : Escaping}
    (shaped : AllShaped schema slots instructions)
    (member : ⟨bound, .value expr escaping⟩ ∈ (renderer.traceAll bindings instructions).visits) :
    ∃ inner, WritesValue schema renderer slots bindings instructions inner bound expr := by
  cases instructions with
  | nil => cases member
  | cons instruction rest =>
      obtain here | ⟨-, later⟩ := mem_visits_traceAll_cons.mp member
      · exact writesValue_of_mem_trace slots bindings instruction rest shaped.1 here
      · obtain ⟨inner, writes⟩ := writesValue_of_mem_traceAll slots bindings rest shaped.2 later
        exact ⟨inner, .later writes⟩

end

end Renderer

theorem Slots.root_agrees {data : Json} (conforms : Conforms schema data schema.root)
    (name : String) (context : ContextNode) :
    Bindings.Match (Slot.Holds schema) (root schema) (.root name data context) :=
  .cons conforms (.cons rfl (.cons (.template name) .nil))

/-- Data that conforms to the schema is rendered, if the lambdas answer as they are declared to.
Whatever is written is a scalar, unless its static shape leaves open what it is. -/
theorem Program.compile_sound {library : Library} {options : Options} {template : Template}
    {program : Program} {renderer : Renderer} {data : Json} (context : ContextNode)
    (compiled : Program.compile schema library options template = .ok program)
    (conforms : Conforms schema data schema.root)
    (serves : renderer.Serves schema program.lambdaNames) :
    (∃ text, renderer.render program data context = .ok text ∧
        (renderer.traceProgram program data context).outcome = .ok text) ∧
      (∀ bound expr escaping,
        ⟨bound, .value expr escaping⟩ ∈ (renderer.traceProgram program data context).visits →
        ∃ inner, WritesValue schema renderer (.root schema) (.root program.name data context)
          program.instructions inner bound expr) ∧
      ∀ inner bound expr,
        WritesValue schema renderer (.root schema) (.root program.name data context)
          program.instructions inner bound expr →
        ∃ shape value, expr.shape? schema inner = some shape ∧ bound.eval expr = .ok value ∧
          value.Fits schema shape ∧ (shape.hasDynamic = false → value.isScalar = true) := by
  have shaped := compile_shaped compiled
  have agrees := Slots.root_agrees conforms program.name context
  refine ⟨?_, ?_, ?_⟩
  · obtain ⟨text, rendered⟩ := Renderer.runAll_ok _ _ _ agrees shaped serves
    exact ⟨text, rendered, (renderer.outcome_traceProgram program data context).trans rendered⟩
  · intro bound expr escaping visited
    exact Renderer.writesValue_of_mem_traceAll _ _ _ shaped visited
  · intro inner bound expr writes
    obtain ⟨inside, shape, known, writable⟩ := writes.shaped agrees shaped serves
    obtain ⟨value, found, fits⟩ := Bindings.eval_fits inside known
    exact ⟨shape, value, known, found, fits, fits.isScalar writable⟩

/-- A numbered list with an absent element, which is written through a lambda. -/
theorem Program.compile_sound_list :
    let schema := (Schema.ofRoot (.struct "page")).withStruct "page"
      ⟨[("rows", .sequence (.optional .text))], [("wrap", .model .text)]⟩
    let template : Template :=
      ⟨"list", "{{# rows}}{{-index}}. {{# wrap}}<b>{{.}}</b>{{/wrap}}; {{/rows}}"⟩
    let renderer : Renderer := ⟨Escaper.html, [("wrap", fun _ _ => .model (.string "x"))]⟩
    let data : Json := .object [("rows", .array [.string "a", .null])]
    ∃ program, Program.compile schema (.ofCatalog []) .default template = .ok program ∧
      renderer.render program data .empty = .ok "1. <b>x</b>; " ∧
      ∃ bound expr escaping, ⟨bound, .value expr escaping⟩ ∈
          (renderer.traceProgram program data .empty).visits ∧
        ∃ inner value, expr.shape? schema inner = some .number ∧ bound.eval expr = .ok value ∧
          value.isScalar = true := by
  intro schema template renderer data
  have compiles : (Program.compile schema (.ofCatalog []) .default template).map (fun program =>
      (program.lambdaNames, (renderer.render program data .empty).toOption,
        (renderer.traceProgram program data .empty).visits.any fun visit =>
          visit.instruction matches .value (.index _ _) _)) =
      .ok (["wrap"], some "1. <b>x</b>; ", true) := by decide +kernel
  obtain ⟨program, compiled, same⟩ := map_eq_ok.mp compiles
  obtain ⟨names, rendered, written⟩ : program.lambdaNames = ["wrap"] ∧ _ ∧ _ := by
    simpa only [Prod.mk.injEq] using same
  obtain ⟨⟨bound, instruction⟩, visited, isIndex⟩ := List.any_eq_true.mp written
  have serves : renderer.Serves schema program.lambdaNames := by
    rw [names]
    intro name member
    cases List.mem_singleton.mp member
    refine ⟨_, rfl, ?_⟩
    intro decl declared text current
    have wrap : decl = .model .text := Option.some.inj declared.symm
    exact ⟨.text, by rw [wrap]; rfl, .text⟩
  have conforms : Conforms schema data schema.root := by decide
  obtain ⟨-, places, scalars⟩ := compile_sound .empty compiled conforms serves
  dsimp only at isIndex
  split at isIndex
  · next loop oneBased escaping =>
      obtain ⟨inner, writes⟩ := places bound _ escaping visited
      obtain ⟨shape, value, known, found, -, scalar⟩ := scalars inner bound _ writes
      obtain ⟨-, rfl⟩ : inner.lookup loop = some .step ∧ shape = .number := by
        simpa [Expr.shape?, eq_comm] using known
      exact ⟨program, compiled, eq_ok_of_toOption rendered, bound, _, escaping, visited, inner,
        value, known, found, scalar rfl⟩
  · cases isIndex

end Stencil
