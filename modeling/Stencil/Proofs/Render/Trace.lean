import Stencil.Proofs.Results
import Stencil.Render.Basic

/-!
What is run for a rendering: every instruction that is come to, with the variables it is run with.
Main statement: with this record left out, a traced run is the run.
-/

namespace Stencil

/-- An instruction that is run, and the variables it is run with. -/
structure Visit where
  bindings : Bindings
  instruction : Instruction

/-- A result with what has been run for it. An error has its visits too. -/
structure Traced (α : Type) where
  outcome : Except RenderError α
  visits : List Visit

namespace Traced

variable {α β : Type}

def lift (outcome : Except RenderError α) : Traced α := ⟨outcome, []⟩

def note (visit : Visit) : Traced Unit := ⟨.ok (), [visit]⟩

instance : Monad Traced where
  pure value := lift (.ok value)
  bind first next :=
    match first.outcome with
    | .error problem => ⟨.error problem, first.visits⟩
    | .ok value => ⟨(next value).outcome, first.visits ++ (next value).visits⟩

instance : MonadLift (Except RenderError) Traced := ⟨lift⟩

theorem bind_ok {first : Traced α} {value : α} (next : α → Traced β)
    (done : first.outcome = .ok value) :
    first >>= next = ⟨(next value).outcome, first.visits ++ (next value).visits⟩ := by
  simp only [bind, done]

theorem bind_error {first : Traced α} {problem : RenderError} (next : α → Traced β)
    (failed : first.outcome = .error problem) :
    first >>= next = ⟨.error problem, first.visits⟩ := by
  simp only [bind, failed]

instance : LawfulMonad Traced := LawfulMonad.mk' Traced
  (by
    rintro α ⟨_ | _, _⟩
    · rfl
    · simp [Functor.map, lift])
  (by
    intro α β value next
    simp [bind, pure, lift])
  (by
    rintro α β γ ⟨_ | _, _⟩ next last
    · rfl
    · simp only [bind]
      split <;> simp_all)

@[simp] theorem outcome_pure (value : α) : (pure value : Traced α).outcome = .ok value := rfl

@[simp] theorem outcome_monadLift (outcome : Except RenderError α) :
    (liftM outcome : Traced α).outcome = outcome := rfl

@[simp] theorem outcome_note (visit : Visit) : (note visit).outcome = .ok () := rfl

@[simp] theorem outcome_bind (first : Traced α) (next : α → Traced β) :
    (first >>= next).outcome = first.outcome >>= fun value => (next value).outcome := by
  cases done : first.outcome with
  | error problem => rw [bind_error next done, error_bind]
  | ok value => rw [bind_ok next done, ok_bind]

theorem outcome_mapM (step : α → Traced β) (items : List α) :
    (items.mapM step).outcome = items.mapM fun item => (step item).outcome := by
  induction items with
  | nil => rfl
  | cons item items ih => simp only [List.mapM_cons, outcome_bind, ih, outcome_pure, pure_eq_ok]

variable {visit : Visit}

theorem mem_visits_bind {first : Traced α} {next : α → Traced β} :
    visit ∈ (first >>= next).visits ↔
      visit ∈ first.visits ∨ ∃ value, first.outcome = .ok value ∧ visit ∈ (next value).visits := by
  cases done : first.outcome with
  | error problem => simp [bind_error next done]
  | ok value => simp [bind_ok next done]

theorem exists_of_mem_visits_mapM {step : α → Traced β} {items : List α}
    (member : visit ∈ (items.mapM step).visits) : ∃ item ∈ items, visit ∈ (step item).visits := by
  induction items with
  | nil => cases member
  | cons item items ih =>
      rw [List.mapM_cons] at member
      obtain here | ⟨_, -, later⟩ := mem_visits_bind.mp member
      · exact ⟨item, List.mem_cons_self, here⟩
      obtain there | ⟨_, -, nothing⟩ := mem_visits_bind.mp later
      · obtain ⟨other, within, there⟩ := ih there
        exact ⟨other, List.mem_cons_of_mem _ within, there⟩
      · cases nothing

end Traced

namespace Renderer

variable (renderer : Renderer)

def tracedOutput (bindings : Bindings) (call : LambdaCall)
    (template? : Option (Bindings → Traced String)) : Traced String := do
  let some lambda := renderer.lambdas.get? call.name
    | Traced.lift (.error (.unknownLambda call.name))
  let current ← bindings.eval call.current
  let output ← match lambda call.body current.toJson, call.kind, template? with
    | .raw text, _, _ => pure (renderer.write text call.escaping)
    | .model value, .model name, some template => template ((name, .json value) :: bindings)
    | .model _, _, _ => Traced.lift (.error (.unexpectedModel call.name))
  return indented call.indent output

mutual

def trace (bindings : Bindings) (instruction : Instruction) : Traced String := do
  Traced.note ⟨bindings, instruction⟩
  match instruction with
  | .literal text => return text
  | .value expr escaping => return renderer.write (← bindings.eval expr).text escaping
  | .conditional guard body =>
      let steps ← bindings.passes guard
      let texts ← steps.mapM fun inner => traceAll inner body
      return String.join texts
  | .inverted guard body =>
      let steps ← bindings.passes guard
      if steps.isEmpty then traceAll bindings body
      else return ""
  | .inclusion _ body | .block _ body => traceAll bindings body
  | .lambda call none => renderer.tracedOutput bindings call none
  | .lambda call (some body) =>
      renderer.tracedOutput bindings call (some fun inner => traceAll inner body)

def traceAll (bindings : Bindings) : List Instruction → Traced String
  | [] => return ""
  | instruction :: rest => do
      let text ← trace bindings instruction
      return text ++ (← traceAll bindings rest)

end

theorem outcome_tracedOutput (bindings : Bindings) (call : LambdaCall)
    (template? : Option (Bindings → Traced String)) :
    (renderer.tracedOutput bindings call template?).outcome =
      renderer.lambdaOutput bindings call
        (template?.map fun template inner => (template inner).outcome) := by
  unfold tracedOutput lambdaOutput
  cases renderer.lambdas.get? call.name with
  | none => rfl
  | some lambda =>
      simp only [Traced.outcome_bind, Traced.outcome_monadLift]
      congr 1
      funext current
      cases lambda call.body current.toJson with
      | raw text => rfl
      | model value =>
          cases call.kind with
          | raw => rfl
          | model name =>
              cases template? with
              | none => rfl
              | some template => exact Traced.outcome_bind _ _

mutual

theorem outcome_trace (bindings : Bindings) (instruction : Instruction) :
    (renderer.trace bindings instruction).outcome = renderer.run bindings instruction := by
  unfold trace
  rw [Traced.outcome_bind, Traced.outcome_note, ok_bind]
  cases instruction with
  | literal text => rfl
  | value expr escaping =>
      rw [run, Traced.outcome_bind]
      rfl
  | conditional guard body =>
      rw [run, Traced.outcome_bind]
      simp only [Traced.outcome_bind, Traced.outcome_mapM, outcome_traceAll]
      rfl
  | inverted guard body =>
      rw [run, Traced.outcome_bind]
      simp only [apply_ite Traced.outcome, outcome_traceAll]
      rfl
  | inclusion name body | block name body => exact outcome_traceAll bindings body
  | lambda call template =>
      cases template with
      | none => exact outcome_tracedOutput renderer bindings call none
      | some body =>
          rw [run]
          refine (outcome_tracedOutput renderer bindings call _).trans ?_
          simp only [Option.map_some, outcome_traceAll]

theorem outcome_traceAll (bindings : Bindings) (instructions : List Instruction) :
    (renderer.traceAll bindings instructions).outcome = renderer.runAll bindings instructions := by
  cases instructions with
  | nil => rfl
  | cons instruction rest =>
      rw [traceAll, runAll, Traced.outcome_bind, outcome_trace]
      simp only [Traced.outcome_bind, outcome_traceAll]
      rfl

end

def traceProgram (program : Program) (data : Json) (context : ContextNode) : Traced String :=
  renderer.traceAll (.root program.name data context) program.instructions

theorem outcome_traceProgram (program : Program) (data : Json) (context : ContextNode) :
    (renderer.traceProgram program data context).outcome = renderer.render program data context :=
  outcome_traceAll renderer _ _

variable {renderer}

inductive RunsBody (renderer : Renderer) (bindings : Bindings) :
    Instruction → Bindings → List Instruction → Prop where
  | conditional {guard : Guard} {body : List Instruction} {steps : List Bindings}
      {step : Bindings} : bindings.passes guard = .ok steps → step ∈ steps →
      RunsBody renderer bindings (.conditional guard body) step body
  | inverted {guard : Guard} {body : List Instruction} : bindings.passes guard = .ok [] →
      RunsBody renderer bindings (.inverted guard body) bindings body
  | inclusion {name : String} {body : List Instruction} :
      RunsBody renderer bindings (.inclusion name body) bindings body
  | block {name : String} {body : List Instruction} :
      RunsBody renderer bindings (.block name body) bindings body
  | lambda {call : LambdaCall} {body : List Instruction} {lambda : Lambda} {current : Value}
      {value : Json} {name : String} : renderer.lambdas.get? call.name = some lambda →
      bindings.eval call.current = .ok current →
      lambda call.body current.toJson = .model value → call.kind = .model name →
      RunsBody renderer bindings (.lambda call (some body)) ((name, .json value) :: bindings) body

section

variable {bindings : Bindings} {instruction : Instruction} {rest : List Instruction}
  {visit : Visit}

theorem exists_of_mem_tracedOutput {call : LambdaCall}
    {template? : Option (Bindings → Traced String)}
    (member : visit ∈ (renderer.tracedOutput bindings call template?).visits) :
    ∃ template lambda current value name, template? = some template ∧
      renderer.lambdas.get? call.name = some lambda ∧ bindings.eval call.current = .ok current ∧
      lambda call.body current.toJson = .model value ∧ call.kind = .model name ∧
      visit ∈ (template ((name, .json value) :: bindings)).visits := by
  unfold tracedOutput at member
  cases registered : renderer.lambdas.get? call.name with
  | none =>
      rw [registered] at member
      cases member
  | some lambda =>
      rw [registered] at member
      obtain nothing | ⟨current, found, member⟩ := Traced.mem_visits_bind.mp member
      · cases nothing
      cases answer : lambda call.body current.toJson with
      | raw text =>
          rw [answer] at member
          cases member
      | model value =>
          rw [answer] at member
          cases kind : call.kind with
          | raw =>
              rw [kind] at member
              cases member
          | model name =>
              rw [kind] at member
              cases template? with
              | none => cases member
              | some template =>
                  obtain member | ⟨_, -, nothing⟩ := Traced.mem_visits_bind.mp member
                  · exact ⟨template, lambda, current, value, name, rfl, rfl, found, answer, rfl,
                      member⟩
                  · cases nothing

theorem mem_visits_trace (member : visit ∈ (renderer.trace bindings instruction).visits) :
    visit = ⟨bindings, instruction⟩ ∨ ∃ inner body,
      RunsBody renderer bindings instruction inner body ∧
        visit ∈ (renderer.traceAll inner body).visits := by
  unfold trace at member
  obtain here | ⟨-, -, member⟩ := Traced.mem_visits_bind.mp member
  · exact .inl (List.mem_singleton.mp here)
  right
  cases instruction with
  | literal text => cases member
  | value expr escaping =>
      obtain nothing | ⟨_, -, nothing⟩ := Traced.mem_visits_bind.mp member
      all_goals cases nothing
  | conditional guard body =>
      obtain nothing | ⟨steps, passes, member⟩ := Traced.mem_visits_bind.mp member
      · cases nothing
      obtain member | ⟨_, -, nothing⟩ := Traced.mem_visits_bind.mp member
      · obtain ⟨step, within, member⟩ := Traced.exists_of_mem_visits_mapM member
        exact ⟨step, body, .conditional passes within, member⟩
      · cases nothing
  | inverted guard body =>
      obtain nothing | ⟨steps, passes, member⟩ := Traced.mem_visits_bind.mp member
      · cases nothing
      cases steps with
      | nil => exact ⟨bindings, body, .inverted passes, member⟩
      | cons step steps => cases member
  | inclusion name body => exact ⟨bindings, body, .inclusion, member⟩
  | block name body => exact ⟨bindings, body, .block, member⟩
  | lambda call template? =>
      cases template? with
      | none =>
          obtain ⟨_, _, _, _, _, absurd, -⟩ := exists_of_mem_tracedOutput member
          cases absurd
      | some body =>
          obtain ⟨_, lambda, current, value, name, same, registered, found, answer, kind, member⟩ :=
            exists_of_mem_tracedOutput member
          cases same
          exact ⟨_, body, .lambda registered found answer kind, member⟩

theorem mem_visits_traceAll_cons :
    visit ∈ (renderer.traceAll bindings (instruction :: rest)).visits ↔
      visit ∈ (renderer.trace bindings instruction).visits ∨
        (∃ text, (renderer.trace bindings instruction).outcome = .ok text) ∧
          visit ∈ (renderer.traceAll bindings rest).visits := by
  rw [traceAll, Traced.mem_visits_bind]
  refine or_congr_right ?_
  constructor
  · rintro ⟨text, done, member⟩
    obtain later | ⟨_, -, nothing⟩ := Traced.mem_visits_bind.mp member
    · exact ⟨⟨text, done⟩, later⟩
    · cases nothing
  · rintro ⟨⟨text, done⟩, later⟩
    exact ⟨text, done, Traced.mem_visits_bind.mpr (.inl later)⟩

theorem mem_visits_traceAll_append {first : List Instruction}
    (member : visit ∈ (renderer.traceAll bindings (first ++ rest)).visits) :
    visit ∈ (renderer.traceAll bindings first).visits ∨
      visit ∈ (renderer.traceAll bindings rest).visits := by
  induction first with
  | nil => exact .inr member
  | cons instruction first ih =>
      obtain here | ⟨done, later⟩ := mem_visits_traceAll_cons.mp member
      · exact .inl (mem_visits_traceAll_cons.mpr (.inl here))
      · refine (ih later).imp_left ?_
        intro here
        exact mem_visits_traceAll_cons.mpr (.inr ⟨done, here⟩)

end

end Renderer

end Stencil
