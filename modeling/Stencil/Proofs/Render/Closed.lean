import Stencil.Proofs.Compile.Shaped
import Stencil.Proofs.Render.Bindings
import Stencil.Proofs.Render.Values
import Stencil.Render.Basic

/-!
Closed programs: every variable in an expression is bound where the expression stands. Main
statement: compiled programs are closed, and closed programs never fail for want of a variable.
-/

namespace Stencil

inductive VariableKind where
  | value
  | loop
  deriving DecidableEq, Repr

abbrev Locals := List (String × VariableKind)

def Locals.root : Locals :=
  [("data", .value), ("context", .value), ("template", .value)]

def Expr.isClosed (locals : Locals) : Expr → Bool
  | .var name => locals.lookup name = some .value
  | .field base _ | .key base _ | .nodeChild base _ | .nodeSearch base _ | .is base _ =>
      base.isClosed locals
  | .first loop | .last loop | .index loop _ => locals.lookup loop = some .loop

namespace Guard

def expr : Guard → Expr
  | truthy value => value
  | present value => value
  | each sequence _ _ => sequence
  | eachNode node _ _ => node

def locals (outer : Locals) : Guard → Locals
  | truthy _ | present _ => outer
  | each _ element index | eachNode _ element index =>
      (index, .loop) :: (element, .value) :: outer

end Guard

def LambdaKind.locals (outer : Locals) : LambdaKind → Locals
  | .raw => outer
  | .model name => (name, .value) :: outer

mutual

def Instruction.isClosed (locals : Locals) : Instruction → Bool
  | .literal _ => true
  | .value expr _ => expr.isClosed locals
  | .conditional guard body =>
      guard.expr.isClosed locals && allClosed (guard.locals locals) body
  | .inverted guard body => guard.expr.isClosed locals && allClosed locals body
  | .inclusion _ body | .block _ body => allClosed locals body
  | .lambda call none => call.current.isClosed locals
  | .lambda call (some body) =>
      call.current.isClosed locals && allClosed (call.kind.locals locals) body

def allClosed (locals : Locals) : List Instruction → Bool
  | [] => true
  | instruction :: rest => instruction.isClosed locals && allClosed locals rest

end

/-- Whether all variables of a program are bound where they are used. -/
def Program.isClosed (program : Program) : Bool := allClosed .root program.instructions

def Slot.kind : Slot → VariableKind
  | value _ => .value
  | step => .loop

namespace Slots

def locals (slots : Slots) : Locals := slots.map fun (name, slot) => (name, slot.kind)

theorem locals_cons (name : String) (slot : Slot) (slots : Slots) :
    locals ((name, slot) :: slots) = (name, slot.kind) :: slots.locals := rfl

theorem lookup_locals (slots : Slots) (name : String) :
    slots.locals.lookup name = (slots.lookup name).map Slot.kind := by
  induction slots with
  | nil => rfl
  | cons entry slots ih =>
      rw [locals_cons, List.lookup_cons, List.lookup_cons]
      split
      · rfl
      · exact ih

end Slots

variable {schema : Schema} {slots inside : Slots} {expr : Expr} {shape : Shape} {guard : Guard}

theorem Expr.isClosed_of_shape? (shaped : expr.shape? schema slots = some shape) :
    expr.isClosed slots.locals = true := by
  induction expr generalizing shape with
  | var name =>
      simp only [shape?] at shaped
      split at shaped
      · next hit => simp [isClosed, Slots.lookup_locals, hit, Slot.kind]
      · simp at shaped
  | field base name ih | key base name ih | nodeChild base name ih | nodeSearch base name ih
  | is base name ih =>
      simp only [shape?] at shaped
      split at shaped
      · next core =>
          obtain ⟨found, hit, -⟩ := Option.map_eq_some_iff.mp core
          exact ih hit
      · simp at shaped
  | first loop | last loop | index loop oneBased =>
      simp only [shape?, Option.ite_none_right_eq_some] at shaped
      simp [isClosed, Slots.lookup_locals, shaped.1, Slot.kind]

theorem Guard.isClosed_of_slots? (passed : guard.slots? schema slots = some inside) :
    guard.expr.isClosed slots.locals = true ∧
      guard.locals slots.locals = inside.locals := by
  cases guard with
  | truthy value | present value =>
      obtain ⟨shape, shaped, rfl⟩ := Option.map_eq_some_iff.mp passed
      exact ⟨Expr.isClosed_of_shape? shaped, rfl⟩
  | each items element index | eachNode items element index =>
      simp only [slots?] at passed
      split at passed
      · next core =>
          obtain ⟨shape, shaped, -⟩ := Option.map_eq_some_iff.mp core
          cases passed
          exact ⟨Expr.isClosed_of_shape? shaped, rfl⟩
      · simp at passed

mutual

theorem Instruction.isClosed_of_shaped (slots : Slots) (instruction : Instruction)
    (shaped : instruction.Shaped schema slots) : instruction.isClosed slots.locals = true := by
  cases instruction with
  | literal text => rfl
  | value expr escaping =>
      obtain ⟨shape, shaped, -⟩ := shaped
      exact Expr.isClosed_of_shape? shaped
  | conditional guard body =>
      obtain ⟨inside, passed, body⟩ := shaped
      obtain ⟨closed, same⟩ := Guard.isClosed_of_slots? passed
      simp [Instruction.isClosed, closed, same, allClosed_of_allShaped inside _ body]
  | inverted guard body =>
      obtain ⟨passes, body⟩ := shaped
      obtain ⟨inside, passed⟩ := Option.isSome_iff_exists.mp passes
      simp [Instruction.isClosed, (Guard.isClosed_of_slots? passed).1,
        allClosed_of_allShaped slots _ body]
  | inclusion name body | block name body => exact allClosed_of_allShaped slots _ shaped
  | lambda call template =>
      cases template with
      | none =>
          obtain ⟨shape, current⟩ := Option.isSome_iff_exists.mp shaped.1
          exact Expr.isClosed_of_shape? current
      | some body =>
          obtain ⟨some, decl, shape, variableName, -, -, kind, body⟩ := shaped
          obtain ⟨found, current⟩ := Option.isSome_iff_exists.mp some
          have closed := allClosed_of_allShaped _ _ body
          rw [Slots.locals_cons] at closed
          simp only [Instruction.isClosed, kind, LambdaKind.locals]
          rw [Expr.isClosed_of_shape? current, Bool.true_and]
          exact closed

theorem allClosed_of_allShaped (slots : Slots) (instructions : List Instruction)
    (shaped : AllShaped schema slots instructions) :
    allClosed slots.locals instructions = true := by
  cases instructions with
  | nil => rfl
  | cons instruction rest =>
      obtain ⟨head, tail⟩ := shaped
      simp [allClosed, Instruction.isClosed_of_shaped slots _ head,
        allClosed_of_allShaped slots _ tail]

end

def Grounded {α : Type} (outcome : Except RenderError α) : Prop :=
  (∀ name, outcome ≠ .error (.unboundVariable name)) ∧ ∀ problem, outcome ≠ .error (.node problem)

namespace Grounded

variable {α β : Type}

theorem ok (value : α) : Grounded (.ok value) := by simp [Grounded]

theorem bind {first : Except RenderError α} {next : α → Except RenderError β}
    (grounded : Grounded first) (further : ∀ value, first = .ok value → Grounded (next value)) :
    Grounded (first >>= next) := by
  cases first with
  | ok value => exact further value rfl
  | error problem =>
      obtain ⟨unbound, node⟩ := grounded
      constructor
      · intro name same
        cases same
        exact unbound name rfl
      · intro problem same
        cases same
        exact node problem rfl

theorem mapM {step : α → Except RenderError β} {items : List α}
    (each : ∀ item ∈ items, Grounded (step item)) : Grounded (items.mapM step) := by
  induction items with
  | nil => exact ok []
  | cons item rest ih =>
      obtain ⟨head, tail⟩ := List.forall_mem_cons.mp each
      rw [List.mapM_cons]
      exact head.bind fun _ _ => (ih tail).bind fun _ _ => ok _

end Grounded

def VariableKind.Holds : VariableKind → Value → Prop
  | value, _ => True
  | loop, bound => ∃ position length, bound = .step position length

variable {locals : Locals} {bindings : Bindings}

namespace Bindings

theorem eval_closed (agrees : Match VariableKind.Holds locals bindings)
    (closed : expr.isClosed locals = true) : ∃ value, bindings.eval expr = .ok value := by
  induction expr with
  | var name =>
      obtain ⟨value, bound, -⟩ := agrees name .value (by simpa [Expr.isClosed] using closed)
      exact ⟨value, by simp [eval, bound]⟩
  | field base name ih | key base name ih | is base name ih =>
      obtain ⟨value, found⟩ := ih closed
      exact ⟨_, by simp only [eval, found, ok_bind, pure_eq_ok]; rfl⟩
  | nodeChild base name ih | nodeSearch base name ih =>
      obtain ⟨value, found⟩ := ih closed
      obtain ⟨node, made⟩ := value.toNode_ok
      exact ⟨_, by simp only [eval, found, made, ok_bind, pure_eq_ok]; rfl⟩
  | first loop | last loop | index loop oneBased =>
      have known : locals.lookup loop = some .loop := by simpa [Expr.isClosed] using closed
      obtain ⟨position, length, found⟩ := agrees.loopState known fun _ step => step
      exact ⟨_, by simp only [eval, found, ok_bind, pure_eq_ok]; rfl⟩

theorem grounded_sequence (agrees : Match VariableKind.Holds locals bindings)
    (closed : expr.isClosed locals = true) : Grounded (bindings.sequence expr) := by
  obtain ⟨value, found⟩ := eval_closed agrees closed
  unfold sequence
  rw [found, ok_bind]
  split <;> simp [Grounded]

theorem grounded_passes (agrees : Match VariableKind.Holds locals bindings)
    (closed : guard.expr.isClosed locals = true) :
    Grounded (bindings.passes guard) ∧ ∀ inners, bindings.passes guard = .ok inners →
      ∀ inner ∈ inners, Match VariableKind.Holds (guard.locals locals) inner := by
  obtain ⟨value, found⟩ := eval_closed agrees closed
  cases guard with
  | truthy expr | present expr =>
      simp only [Guard.expr] at found
      simp only [passes, found, ok_bind, pure_eq_ok]
      refine ⟨.ok _, ?_⟩
      intro inners same inner member
      simp only [Except.ok.injEq] at same
      subst same
      split at member
      · cases List.mem_singleton.mp member
        exact agrees
      · cases member
  | each items element index =>
      simp only [passes]
      refine ⟨(grounded_sequence agrees closed).bind fun _ _ => .ok _, ?_⟩
      intro inners done inner member
      obtain ⟨values, -, same⟩ := bind_eq_ok.mp done
      cases same
      exact agrees.loop (fun position length => ⟨position, length, rfl⟩) (fun _ _ => trivial) member
  | eachNode node element index =>
      simp only [Guard.expr] at found
      obtain ⟨made, node⟩ := value.toNode_ok
      simp only [passes, nodeSteps, found, node, ok_bind, pure_eq_ok]
      refine ⟨.ok _, ?_⟩
      intro inners done inner member
      cases done
      exact agrees.loop (fun position length => ⟨position, length, rfl⟩) (fun _ _ => trivial) member

end Bindings

namespace Renderer

variable (renderer : Renderer)

theorem grounded_lambdaOutput {call : LambdaCall}
    {template? : Option (Bindings → Except RenderError String)}
    (agrees : Bindings.Match VariableKind.Holds locals bindings)
    (closed : call.current.isClosed locals = true)
    (template : ∀ template ∈ template?, ∀ name value, call.kind = .model name →
      Grounded (template ((name, value) :: bindings))) :
    Grounded (renderer.lambdaOutput bindings call template?) := by
  obtain ⟨current, found⟩ := Bindings.eval_closed agrees closed
  unfold lambdaOutput
  split
  · next lambda registered =>
      simp only [found, ok_bind]
      split
      · exact .ok _
      · next model => exact (template _ rfl _ _ model).bind fun _ _ => .ok _
      · simp [Grounded]
  · simp [Grounded]

mutual

theorem grounded_run (locals : Locals) (bindings : Bindings) (instruction : Instruction)
    (agrees : Bindings.Match VariableKind.Holds locals bindings)
    (closed : instruction.isClosed locals = true) :
    Grounded (renderer.run bindings instruction) := by
  cases instruction with
  | literal text => exact .ok text
  | value expr escaping =>
      obtain ⟨value, found⟩ := Bindings.eval_closed agrees closed
      simp only [run, found, ok_bind]
      exact .ok _
  | conditional guard body =>
      simp only [Instruction.isClosed, Bool.and_eq_true] at closed
      obtain ⟨passes, inside⟩ := Bindings.grounded_passes agrees closed.1
      refine passes.bind fun inners found => ?_
      refine Grounded.bind (.mapM fun inner member => ?_) fun _ _ => .ok _
      exact grounded_runAll _ inner body (inside inners found inner member) closed.2
  | inverted guard body =>
      simp only [Instruction.isClosed, Bool.and_eq_true] at closed
      refine (Bindings.grounded_passes agrees closed.1).1.bind fun inners found => ?_
      split
      · exact grounded_runAll locals bindings body agrees closed.2
      · exact .ok _
  | inclusion name body | block name body =>
      exact grounded_runAll locals bindings body agrees closed
  | lambda call template =>
      cases template with
      | none => exact grounded_lambdaOutput renderer agrees closed (by simp)
      | some body =>
          simp only [Instruction.isClosed, Bool.and_eq_true] at closed
          refine grounded_lambdaOutput renderer agrees closed.1 ?_
          intro template given name value kind
          cases given
          refine grounded_runAll ((name, .value) :: locals) _ body (agrees.cons trivial) ?_
          simpa only [kind, LambdaKind.locals] using closed.2

theorem grounded_runAll (locals : Locals) (bindings : Bindings)
    (instructions : List Instruction)
    (agrees : Bindings.Match VariableKind.Holds locals bindings)
    (closed : allClosed locals instructions = true) :
    Grounded (renderer.runAll bindings instructions) := by
  cases instructions with
  | nil => exact .ok ""
  | cons instruction rest =>
      simp only [allClosed, Bool.and_eq_true] at closed
      refine (grounded_run locals bindings instruction agrees closed.1).bind fun _ _ => ?_
      exact (grounded_runAll locals bindings rest agrees closed.2).bind fun _ _ => .ok _

end

theorem grounded_render {program : Program} (closed : program.isClosed = true) (data : Json)
    (context : ContextNode) : Grounded (renderer.render program data context) := by
  refine grounded_runAll renderer .root _ _ ?_ closed
  exact .cons trivial (.cons trivial (.cons trivial .nil))

end Renderer

namespace Program

/-- Every variable of a compiled program is bound, by what it is used as, wherever it stands, and
rendering never fails for want of a variable or a node. -/
theorem compile_grounded {schema : Schema} {library : Library} {options : Options}
    {template : Template} {program : Program}
    (compiled : Program.compile schema library options template = .ok program) :
    program.isClosed = true ∧
      ∀ (renderer : Renderer) (data : Json) (context : ContextNode),
        (∀ name, renderer.render program data context ≠ .error (.unboundVariable name)) ∧
          ∀ problem, renderer.render program data context ≠ .error (.node problem) := by
  have closed : program.isClosed = true :=
    allClosed_of_allShaped (.root schema) _ (compile_shaped compiled)
  exact ⟨closed, fun renderer data context => renderer.grounded_render closed data context⟩

/-- A list whose elements go through a lambda and a partial. -/
theorem compile_grounded_list :
    let schema := (Schema.ofRoot (.struct "page")).withStruct "page"
      ⟨[("rows", .sequence (.optional .text))], [("wrap", .model .text)]⟩
    let library := Library.ofCatalog [("row", "{{.}}{{@template.name}}")]
    let template : Template := ⟨"list",
      "{{# rows}}{{# wrap}}<b>{{.}}</b>{{/wrap}}{{>row}}{{^@last}}, {{/@last}}{{/rows}}"⟩
    ∃ program, Program.compile schema library .default template = .ok program ∧
      program.isClosed = true ∧
      ∀ (renderer : Renderer) (data : Json) (context : ContextNode),
        (∀ name, renderer.render program data context ≠ .error (.unboundVariable name)) ∧
          ∀ problem, renderer.render program data context ≠ .error (.node problem) := by
  intro schema library template
  have compiles : (Program.compile schema library .default template).isOk = true := by
    decide +kernel
  obtain ⟨program, compiled⟩ := eq_ok_of_isOk compiles
  exact ⟨program, compiled, compile_grounded compiled⟩

end Program

end Stencil
