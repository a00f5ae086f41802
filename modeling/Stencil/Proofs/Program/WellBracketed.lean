import Stencil.Proofs.Program.Bracketing
import Stencil.Proofs.Program.Tree
import Stencil.Proofs.Results

/-!
What bracketed calls come to. Main statement: a program that is fed with bracketed calls has nothing
open at the end, and a walk of its tree gives these calls again, with adjacent literals joined and
empty ones left out.
-/

namespace Stencil

mutual

def Event.kept : Event → Except CompileError KeptCall
  | .call plain => .ok (.call plain)
  | .lambda call (.ok body) =>
      match call.kind with
      | .raw => .ok (.lambda call none)
      | .model _ => do return .lambda call (some (← keptAll body))
  | .lambda call (.error error) =>
      match call.kind with
      | .raw => .ok (.lambda call none)
      | .model _ => .error error

def keptAll : List Event → Except CompileError (List KeptCall)
  | [] => .ok []
  | event :: rest => do return (← event.kept) :: (← keptAll rest)

end

section

variable {owed : List Call} {events rest : List Event} {calls : List KeptCall}
  {instructions : List Instruction}

theorem Construct.of_exit? {call exit : Call} (opens : call.exit? = some exit) :
    ∃ construct : Construct, call = construct.enter ∧ exit = construct.exit := by
  cases call with
  | enterSection guard =>
      cases opens
      exact ⟨.conditional guard, rfl, rfl⟩
  | enterInverted guard =>
      cases opens
      exact ⟨.inverted guard, rfl, rfl⟩
  | enterPartial name =>
      cases opens
      exact ⟨.inclusion name, rfl, rfl⟩
  | enterBlock name =>
      cases opens
      exact ⟨.block name, rfl, rfl⟩
  | _ => cases opens

theorem spells_of_plain {call : Call} (opens : call.exit? = none) (exits : call.isExit = false) :
    ∃ instruction : Instruction, Spells [.call call] [instruction] ∧
      instruction.walk = [.call call] := by
  cases call with
  | literal text => exact ⟨.literal text, .literal text .nil, rfl⟩
  | value expr escaping => exact ⟨.value expr escaping, .value expr escaping .nil, rfl⟩
  | enterSection | enterInverted | enterPartial | enterBlock => cases opens
  | exitSection | exitInverted | exitPartial | exitBlock => cases exits

/-- Events below some open constructs, with their calls as a program keeps them: for each construct,
innermost first, what is still to come inside it and the exit that closes it, and then the rest. -/
inductive Fills : List Call → List Event → List KeptCall → Prop where
  | outermost {events : List Event} {instructions : List Instruction} :
      Spells events instructions → Fills [] events (walkAll instructions)
  | inside {exit : Call} {outer : List Call} {inner rest : List Event} {body : List Instruction}
      {calls : List KeptCall} : Spells inner body → Fills outer rest calls →
      Fills (exit :: outer) (inner ++ .call exit :: rest) (walkAll body ++ .call exit :: calls)

theorem Fills.after {front : List Event} (fills : Fills owed events calls)
    (spells : Spells front instructions) :
    Fills owed (front ++ events) (walkAll instructions ++ calls) := by
  cases fills with
  | outermost further =>
      rw [← walkAll_append]
      exact .outermost (spells.append further)
  | inside further outer =>
      rw [← List.append_assoc, ← List.append_assoc, ← walkAll_append]
      exact .inside (spells.append further) outer

theorem Fills.enter {construct : Construct} (fills : Fills (construct.exit :: owed) events calls) :
    Fills owed (.call construct.enter :: events) (.call construct.enter :: calls) := by
  cases fills with
  | @inside _ _ inner rest body calls spells outer =>
      have closed := outer.after (Spells.enclose construct spells)
      rw [walkAll_singleton, walk_close] at closed
      simpa only [List.cons_append, List.append_assoc, List.nil_append] using closed

theorem Fills.exit {call : Call} (fills : Fills owed events calls) :
    Fills (call :: owed) (.call call :: events) (.call call :: calls) := .inside .nil fills

theorem fills_of_owedAfter (events : List Event) (owed : List Call) (calls : List KeptCall)
    (settled : owedAfter owed events = some [])
    (lambdas : ∀ call body, .lambda call (.ok body) ∈ events → AllBracketed body)
    (keeps : keptAll events = .ok calls) : Fills owed events calls := by
  match events with
  | [] =>
      cases settled
      cases keeps
      exact .outermost .nil
  | event :: rest =>
      obtain ⟨first, inside, keeps⟩ := bind_eq_ok.mp keeps
      obtain ⟨later, further, same⟩ := bind_eq_ok.mp keeps
      cases same
      rw [owedAfter_cons] at settled
      obtain ⟨between, here, settled⟩ := Option.bind_eq_some_iff.mp settled
      have ih := fills_of_owedAfter rest between later settled
        (fun call body member => lambdas call body (List.mem_cons_of_mem _ member)) further
      match event with
      | .call call =>
          cases inside
          obtain ⟨exit, opens, rfl⟩ | ⟨-, -, rfl⟩ | ⟨opens, exits, rfl⟩ :=
            Call.settle_eq_some.mp here
          · obtain ⟨construct, rfl, rfl⟩ := Construct.of_exit? opens
            exact ih.enter
          · exact ih.exit
          · obtain ⟨instruction, spells, walk⟩ := spells_of_plain opens exits
            have whole := ih.after spells
            rwa [walkAll_singleton, walk] at whole
      | .lambda call (.ok body) =>
          cases here
          unfold Event.kept at inside
          cases kind : call.kind with
          | raw =>
              rw [kind] at inside
              cases inside
              exact ih.after (.rawLambda (.ok body) kind .nil)
          | model variableName =>
              rw [kind] at inside
              obtain ⟨inner, within, same⟩ := bind_eq_ok.mp inside
              cases same
              have bracketed := lambdas call body List.mem_cons_self
              have filled := fills_of_owedAfter body [] inner bracketed.itself
                (fun call body member => bracketed.lambda member) within
              cases filled with
              | outermost spells => exact ih.after (.modelLambda kind spells .nil)
      | .lambda call (.error error) =>
          cases here
          unfold Event.kept at inside
          cases kind : call.kind with
          | raw =>
              rw [kind] at inside
              cases inside
              exact ih.after (.rawLambda (.error error) kind .nil)
          | model variableName =>
              rw [kind] at inside
              cases inside

def failure? {α : Type} : Except CompileError α → Option CompileError
  | .error error => some error
  | .ok _ => none

theorem feed_failure (events : List Event) (program : Program) :
    (Program.sink.feed program events).2 = failure? (keptAll events) := by
  match events with
  | [] => rfl
  | .call call :: rest =>
      rw [Program.feed_call, feed_failure rest]
      simp only [keptAll, Event.kept, ok_bind]
      cases keptAll rest <;> rfl
  | .lambda call (.ok body) :: rest =>
      rw [Program.feed_lambda]
      simp only [keptAll, Event.kept]
      cases kind : call.kind with
      | raw =>
          simp only [Program.lambda, kind, Program.andThen, ok_bind]
          rw [feed_failure rest]
          cases keptAll rest <;> rfl
      | model variableName =>
          have inside := feed_failure body (.empty call.name)
          simp only [Program.lambda, kind, Program.feedTemplate]
          revert inside
          cases keptAll body with
          | error error =>
              rcases Program.sink.feed (.empty call.name) body with ⟨nested, failure⟩
              rintro ⟨⟩
              rfl
          | ok inner =>
              rcases Program.sink.feed (.empty call.name) body with ⟨nested, failure⟩
              rintro ⟨⟩
              simp only [Program.andThen, ok_bind]
              rw [feed_failure rest]
              cases keptAll rest <;> rfl
  | .lambda call (.error error) :: rest =>
      rw [Program.feed_lambda]
      simp only [keptAll, Event.kept]
      cases kind : call.kind with
      | raw =>
          simp only [Program.lambda, kind, Program.andThen, ok_bind]
          rw [feed_failure rest]
          cases keptAll rest <;> rfl
      | model variableName =>
          simp only [Program.lambda, kind, Program.feedTemplate, Program.andThen]
          rfl

end

/-- What the calls of a template come to: they are bracketed, and a program that is fed with them
has nothing open at the end, gives them again on a walk of its tree and holds no loose text. The
program fails if the template of a model has failed. -/
structure WellBracketed (events : List Event) : Prop where
  bracketed : IsBracketed events
  walk : ∀ name, (Program.ofEvents name events).map
      (fun program => (program.unfinished, walkAll program.instructions)) =
    (keptAll events).map fun calls => ([], joinTexts calls)
  tidy : ∀ name program, Program.ofEvents name events = .ok program → AllTidy program.instructions

theorem AllBracketed.wellBracketed {events : List Event} (all : AllBracketed events) :
    WellBracketed events := by
  cases keeps : keptAll events with
  | error error =>
      have failed (name : String) : Program.ofEvents name events = .error error := by
        have failure := feed_failure events (.empty name)
        rw [keeps] at failure
        revert failure
        unfold Program.ofEvents
        rcases Program.sink.feed (.empty name) events with ⟨program, outcome⟩
        rintro ⟨⟩
        rfl
      refine ⟨all.itself, ?_, ?_⟩
      · intro name
        rw [failed, keeps]
        rfl
      · intro name program made
        rw [failed] at made
        cases made
  | ok calls =>
      have filled := fills_of_owedAfter events [] calls all.itself
        (fun call body member => all.lambda member) keeps
      cases filled with
      | @outermost _ instructions spells =>
          refine ⟨all.itself, ?_, ?_⟩
          · intro name
            rw [Program.ofEvents_spells spells, keeps]
            exact congrArg (fun calls => Except.ok ([], calls)) (walkAll_joined instructions)
          · intro name program made
            rw [Program.ofEvents_spells spells] at made
            cases made
            exact allTidy_joined instructions

end Stencil
