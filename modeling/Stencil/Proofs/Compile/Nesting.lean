import Stencil.Proofs.Compile.Run
import Stencil.Proofs.Compile.Streaming

/-!
How deeply templates nest. Main statement: composing a template ends after as many levels as options
allow, none of the templates that it enters is deeper, and in the program no more inclusions and
lambdas stand inside each other.
-/

namespace Stencil

mutual

def Instruction.nesting : Instruction → Nat
  | .literal _ | .value _ _ => 0
  | .conditional _ body | .inverted _ body | .block _ body => nestingAll body
  | .inclusion _ body | .lambda _ (some body) => nestingAll body + 1
  | .lambda _ none => 1

def nestingAll : List Instruction → Nat
  | [] => 0
  | instruction :: rest => max instruction.nesting (nestingAll rest)

end

mutual

def Event.level (most level : Nat) : Event → Option Nat
  | .call (.enterPartial _) => if level < most then some (level + 1) else none
  | .call .exitPartial => some (level - 1)
  | .call _ => some level
  | .lambda _ (.ok body) =>
      if level < most ∧ levelAfter most (level + 1) body = some (level + 1) then some level
      else none
  | .lambda _ (.error _) => if level < most then some level else none

def levelAfter (most level : Nat) : List Event → Option Nat
  | [] => some level
  | event :: rest => (event.level most level).bind fun next => levelAfter most next rest

end

def Construct.weight : Construct → Nat
  | .inclusion _ => 1
  | _ => 0

section

variable {most level after more : Nat} {events rest : List Event} {instructions : List Instruction}

theorem levelAfter_append (most level : Nat) (first second : List Event) :
    levelAfter most level (first ++ second) =
      (levelAfter most level first).bind fun next => levelAfter most next second := by
  induction first generalizing level with
  | nil => rfl
  | cons event rest ih =>
      rw [List.cons_append, levelAfter, levelAfter]
      cases event.level most level with
      | none => rfl
      | some next => exact ih next

theorem levelAfter_cons_eq_some {event : Event} :
    levelAfter most level (event :: rest) = some after ↔
      ∃ next, event.level most level = some next ∧ levelAfter most next rest = some after := by
  rw [levelAfter, Option.bind_eq_some_iff]

theorem levelAfter_append_eq_some {first second : List Event} :
    levelAfter most level (first ++ second) = some after ↔
      ∃ next, levelAfter most level first = some next ∧
        levelAfter most next second = some after := by
  rw [levelAfter_append, Option.bind_eq_some_iff]

theorem nesting_close (construct : Construct) (body : List Instruction) :
    (construct.close body).nesting = nestingAll body + construct.weight := by
  cases construct <;> rfl

theorem level_enter {construct : Construct} {next : Nat} (within : level ≤ most)
    (goes : (Event.call construct.enter).level most level = some next) :
    next = level + construct.weight ∧ next ≤ most := by
  cases construct with
  | inclusion name =>
      obtain ⟨below, goes⟩ := Option.ite_none_right_eq_some.mp goes
      cases goes
      exact ⟨rfl, below⟩
  | _ =>
      cases goes
      exact ⟨rfl, within⟩

theorem level_exit (construct : Construct) (most level : Nat) :
    (Event.call construct.exit).level most (level + construct.weight) = some level := by
  cases construct <;> rfl

theorem level_lambda {call : LambdaCall} {template : Except CompileError (List Event)}
    (goes : (Event.lambda call template).level most level = some after) :
    after = level ∧ level < most ∧ ∀ body, template = .ok body →
      levelAfter most (level + 1) body = some (level + 1) := by
  cases template with
  | error problem =>
      obtain ⟨below, goes⟩ := Option.ite_none_right_eq_some.mp goes
      cases goes
      exact ⟨rfl, below, fun _ absent => nomatch absent⟩
  | ok body =>
      obtain ⟨⟨below, inside⟩, goes⟩ := Option.ite_none_right_eq_some.mp goes
      cases goes
      refine ⟨rfl, below, ?_⟩
      rintro _ ⟨⟩
      exact inside

theorem nestingAll_le_of_spells (spells : Spells events instructions) (within : level ≤ most)
    (goes : levelAfter most level events = some after) :
    after = level ∧ level + nestingAll instructions ≤ most := by
  induction spells generalizing level after with
  | nil =>
      cases goes
      exact ⟨rfl, within⟩
  | literal text _ ih =>
      obtain ⟨same, further⟩ := ih within goes
      refine ⟨same, ?_⟩
      simpa [nestingAll, Instruction.nesting] using further
  | value expr escaping _ ih =>
      obtain ⟨same, further⟩ := ih within goes
      refine ⟨same, ?_⟩
      simpa [nestingAll, Instruction.nesting] using further
  | @construct construct inner rest body more _ _ ihInner ihRest =>
      obtain ⟨inside, enters, goes⟩ := levelAfter_cons_eq_some.mp goes
      obtain ⟨rfl, below⟩ := level_enter within enters
      obtain ⟨last, inner, goes⟩ := levelAfter_append_eq_some.mp goes
      obtain ⟨rfl, deep⟩ := ihInner below inner
      obtain ⟨outside, exits, goes⟩ := levelAfter_cons_eq_some.mp goes
      rw [level_exit] at exits
      cases exits
      obtain ⟨same, further⟩ := ihRest within goes
      refine ⟨same, ?_⟩
      rw [nestingAll, nesting_close]
      omega
  | @rawLambda call template rest more raw _ ih =>
      obtain ⟨next, called, later⟩ := levelAfter_cons_eq_some.mp goes
      obtain ⟨rfl, below, -⟩ := level_lambda called
      obtain ⟨same, further⟩ := ih within later
      refine ⟨same, ?_⟩
      rw [nestingAll, Instruction.nesting]
      omega
  | @modelLambda call variableName inner rest body more model _ _ ihInner ihRest =>
      obtain ⟨next, called, later⟩ := levelAfter_cons_eq_some.mp goes
      obtain ⟨rfl, below, inside⟩ := level_lambda called
      obtain ⟨-, deep⟩ := ihInner below (inside inner rfl)
      obtain ⟨same, further⟩ := ihRest within later
      refine ⟨same, ?_⟩
      rw [nestingAll, Instruction.nesting]
      omega

theorem nestingAll_le_iff : nestingAll instructions ≤ most ↔
    ∀ instruction ∈ instructions, instruction.nesting ≤ most := by
  induction instructions with
  | nil => simp [nestingAll]
  | cons instruction rest ih => rw [nestingAll, Nat.max_le, ih, List.forall_mem_cons]

mutual

theorem nesting_addJoined (most : Nat) (written : List Instruction) (instruction : Instruction)
    (before : ∀ other ∈ written, other.nesting ≤ most) (here : instruction.nesting ≤ most) :
    ∀ other ∈ addJoined written instruction, other.nesting ≤ most := by
  cases instruction with
  | literal text =>
      rw [addJoined]
      split
      · exact before
      · unfold Program.appendText
        split
        · exact List.forall_mem_cons.mpr ⟨Nat.zero_le most, (List.forall_mem_cons.mp before).2⟩
        · exact List.forall_mem_cons.mpr ⟨Nat.zero_le most, before⟩
  | value expr escaping => exact List.forall_mem_cons.mpr ⟨here, before⟩
  | conditional guard body | inverted guard body | block name body =>
      exact List.forall_mem_cons.mpr ⟨(nestingAll_joinOnto_le body).trans here, before⟩
  | inclusion name body =>
      exact List.forall_mem_cons.mpr
        ⟨(Nat.succ_le_succ (nestingAll_joinOnto_le body)).trans here, before⟩
  | lambda call template =>
      cases template with
      | none => exact List.forall_mem_cons.mpr ⟨here, before⟩
      | some body =>
          exact List.forall_mem_cons.mpr
            ⟨(Nat.succ_le_succ (nestingAll_joinOnto_le body)).trans here, before⟩

theorem nesting_joinOnto (most : Nat) (written : List Instruction) (instructions : List Instruction)
    (before : ∀ other ∈ written, other.nesting ≤ most) (here : nestingAll instructions ≤ most) :
    ∀ other ∈ joinOnto written instructions, other.nesting ≤ most := by
  cases instructions with
  | nil => exact before
  | cons instruction rest =>
      rw [nestingAll, Nat.max_le] at here
      exact nesting_joinOnto most _ rest (nesting_addJoined most written instruction before here.1)
        here.2

theorem nestingAll_joinOnto_le (instructions : List Instruction) :
    nestingAll (joinOnto [] instructions).reverse ≤ nestingAll instructions := by
  have each := nesting_joinOnto (nestingAll instructions) [] instructions
    (List.forall_mem_nil _) le_rfl
  rw [nestingAll_le_iff]
  intro instruction member
  exact each instruction (List.mem_reverse.mp member)

end

end

namespace Compile

section

variable {setting : Setting} {nested? : Option Nested} {s next : State} {events : List Event}
  {most level : Nat}

theorem levelAfter_of_plain
    (plain : ∀ event ∈ events, ∃ call : Call, event = .call call ∧ call.isAround = false)
    (most level : Nat) : levelAfter most level events = some level := by
  induction events with
  | nil => rfl
  | cons event rest ih =>
      obtain ⟨⟨call, rfl, inside⟩, further⟩ := List.forall_mem_cons.mp plain
      have here : (Event.call call).level most level = some level := by
        cases call with
        | enterPartial | exitPartial => cases inside
        | _ => rfl
      rw [levelAfter, here, Option.bind_some]
      exact ih further

def NestedLevel (most level : Nat) (nested : Nested) : Prop :=
  level < most ∧ ∀ inner events atLineStart, nested inner = .ok (events, atLineStart) →
    levelAfter most (level + 1) events = some (level + 1)

theorem Step.keeps_level (nestedLevel : ∀ nested ∈ nested?, NestedLevel most level nested)
    (step : Step nested? s events next) : levelAfter most level events = some level := by
  cases step with
  | moves moves => exact levelAfter_of_plain moves.plain most level
  | @inclusion nested inner events atLineStart _ name found compiled openTags =>
      obtain ⟨below, levels⟩ := nestedLevel nested found
      have enters : (Event.call (.enterPartial name)).level most level = some (level + 1) :=
        if_pos below
      rw [levelAfter, enters, Option.bind_some, levelAfter_append,
        levels inner events atLineStart compiled]
      rfl
  | @lambda nested front outcome _ call found writes compiled openTags =>
      obtain ⟨below, levels⟩ := nestedLevel nested found
      have before : levelAfter most level front = some level := by
        refine levelAfter_of_plain ?_ most level
        intro event member
        obtain ⟨call, same, inside, -⟩ := writes event member
        exact ⟨call, same, inside⟩
      have called : (Event.lambda call outcome).level most level = some level := by
        cases outcome with
        | error problem => exact if_pos below
        | ok inner =>
            obtain ⟨body, atLineStart, compiled⟩ := compiled inner rfl
            exact if_pos ⟨below, levels body inner atLineStart compiled⟩
      rw [levelAfter_append, before, Option.bind_some, levelAfter, called]
      rfl

theorem Steps.keeps_level (nestedLevel : ∀ nested ∈ nested?, NestedLevel most level nested)
    (steps : Steps nested? s events next) : levelAfter most level events = some level := by
  induction steps with
  | refl => rfl
  | step first _ ih => rw [levelAfter_append, first.keeps_level nestedLevel, Option.bind_some, ih]

theorem compileBody_level (setting : Setting) (room level : Nat) {body : Body} {atLineStart : Bool}
    (done : compileBody setting room body = .ok (events, atLineStart)) :
    levelAfter (level + room) level events = some level := by
  induction room generalizing level body events atLineStart with
  | zero =>
      obtain ⟨last, steps, -⟩ := compileWith_steps done
      refine steps.keeps_level ?_
      rintro nested ⟨⟩
  | succ room ih =>
      obtain ⟨last, steps, -⟩ := compileWith_steps done
      refine steps.keeps_level ?_
      rintro nested ⟨⟩
      refine ⟨by omega, ?_⟩
      intro inner events atLineStart compiled
      have deeper := ih (level + 1) compiled
      rwa [Nat.add_right_comm, Nat.add_assoc] at deeper

end

end Compile

/-- Keeps the calls, those of lambdas with what has come of their templates, and the stacks of all
templates that are entered. -/
def recorder : Observer (List Event × List TemplateStack) where
  call st call := (st.1 ++ [.call call], st.2)
  lambda st call template :=
    match template ([], st.2) with
    | ((inner, entered), none) => ((st.1 ++ [.lambda call (.ok inner)], entered), none)
    | ((_, entered), some error) => ((st.1 ++ [.lambda call (.error error)], entered), none)
  enter st stack := (st.1, st.2 ++ [stack])

def Records (admits : TemplateStack → Prop) (st : List Event × List TemplateStack)
    (outcome : Except CompileError (List Event)) (after : List Event × List TemplateStack) : Prop :=
  (∀ events, outcome = .ok events → after.1 = st.1 ++ events) ∧
  ((∀ stack ∈ st.2, admits stack) → ∀ stack ∈ after.2, admits stack)

theorem recorder_admits (admits : TemplateStack → Prop) :
    Compile.Faithful recorder admits (Records admits) where
  nothing st := by
    refine ⟨?_, id⟩
    rintro _ ⟨⟩
    exact (List.append_nil _).symm
  failed st error := by
    refine ⟨?_, id⟩
    rintro _ ⟨⟩
  append := by
    intro st middle after events more here further
    refine ⟨?_, further.2 ∘ here.2⟩
    intro whole same
    obtain ⟨later, rfl, rfl⟩ := map_eq_ok.mp same
    rw [further.1 later rfl, here.1 events rfl, List.append_assoc]
  enter st stack admitted := by
    refine ⟨?_, ?_⟩
    · rintro _ ⟨⟩
      exact (List.append_nil _).symm
    · intro before
      exact List.forall_mem_append.mpr ⟨before, List.forall_mem_singleton.mpr admitted⟩
  call st call := by
    refine ⟨?_, id⟩
    rintro _ ⟨⟩
    rfl
  lambda := by
    intro template outcome st call told
    obtain ⟨fails, records, bounded⟩ := told ([], st.2)
    unfold recorder
    dsimp only
    revert fails records bounded
    rcases template ([], st.2) with ⟨⟨inner, entered⟩, failure⟩
    rintro rfl records bounded
    cases outcome with
    | error problem =>
        refine ⟨rfl, ?_, bounded⟩
        rintro _ ⟨⟩
        rfl
    | ok events =>
        have same : inner = events := records events rfl
        subst same
        refine ⟨rfl, ?_, bounded⟩
        rintro _ ⟨⟩
        rfl

theorem recorder_faithful (bound : Nat) :
    Compile.Faithful recorder (fun stack => stack.depth ≤ bound)
      (Records fun stack => stack.depth ≤ bound) := recorder_admits _

theorem Program.nestingAll_le {schema : Schema} {library : Library} {options : Options}
    {template : Template} {program : Program}
    (compiled : Program.compile schema library options template = .ok program) :
    nestingAll program.instructions ≤ options.maxIncludeDepth := by
  obtain ⟨events, done, made⟩ := bind_eq_ok.mp compiled
  obtain ⟨⟨events, atLineStart⟩, run, rfl⟩ := map_eq_ok.mp done
  obtain ⟨lines, last, -, instructions, -, spells⟩ :=
    Compile.compileBody_derives _ _ _ _ _ run (accepts_of_ofEvents made)
  rw [ofEvents_spells spells, Except.ok.injEq] at made
  subst made
  have levels := Compile.compileBody_level _ _ 0 run
  obtain ⟨-, nests⟩ := nestingAll_le_of_spells spells (Nat.zero_le _) levels
  calc nestingAll (joinOnto [] instructions).reverse
      ≤ nestingAll instructions := nestingAll_joinOnto_le instructions
    _ ≤ options.maxIncludeDepth := by omega

/-- Composing a template ends after as many levels as options allow, whatever would be done further
down, and has then recorded what a compile gives. It has entered no template that is deeper, and in
the program of the template no more inclusions and lambdas stand inside each other. -/
theorem compile_nests (schema : Schema) (library : Library) (options : Options)
    (template : Template)
    (deeper : Compile.Body → Delivery (List Event × List TemplateStack) Bool) :
    ∃ outcome events entered,
      (composeInto recorder schema library options deeper template).on
          ([], [.root template.name]) = (outcome, events, entered) ∧
      outcome.map (fun _ => events) = compile schema library options template ∧
      (∀ stack ∈ entered, stack.depth ≤ options.maxIncludeDepth + 1) ∧
      ∀ program, Program.compile schema library options template = .ok program →
        nestingAll program.instructions ≤ options.maxIncludeDepth := by
  obtain ⟨same, records, bounded⟩ := composeInto_compile
    (recorder_faithful (options.maxIncludeDepth + 1)) schema library deeper template
    ([], [.root template.name])
  generalize (composeInto recorder schema library options deeper template).on
    ([], [.root template.name]) = run at same records bounded ⊢
  obtain ⟨outcome, events, entered⟩ := run
  have shallow : (TemplateStack.root template.name).depth ≤ options.maxIncludeDepth + 1 :=
    Nat.le_add_left 1 _
  refine ⟨outcome, events, entered, rfl, ?_, bounded (List.forall_mem_singleton.mpr shallow),
    fun program => Program.nestingAll_le⟩
  revert same records
  cases compile schema library options template with
  | error problem =>
      cases outcome <;> rintro ⟨⟩ -
      rfl
  | ok told =>
      cases outcome <;> rintro ⟨⟩ records
      have whole : events = [] ++ told := records told rfl
      rw [whole]
      rfl

/-- A template that includes another one, where that is as deep as templates may be. -/
theorem compile_nests_inclusion :
    ∃ program, Program.compile .dynamic (.ofCatalog [("p", "x")]) ⟨1⟩ ⟨"main", "{{>p}}"⟩ =
        .ok program ∧
      nestingAll program.instructions ≤ 1 := by
  have succeeds : (Program.compile .dynamic (.ofCatalog [("p", "x")]) ⟨1⟩
      ⟨"main", "{{>p}}"⟩).isOk = true := by decide +kernel
  obtain ⟨program, compiled⟩ := eq_ok_of_isOk succeeds
  obtain ⟨-, -, -, -, -, -, bounded⟩ := compile_nests .dynamic (.ofCatalog [("p", "x")]) ⟨1⟩
    ⟨"main", "{{>p}}"⟩ fun _ => pure true
  exact ⟨program, compiled, bounded program compiled⟩

end Stencil
