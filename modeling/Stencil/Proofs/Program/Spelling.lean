import Stencil.Program.Basic

/-!
Events and the instructions that they spell out. Main statement: a program takes in events that
spell out some instructions, and then holds these with adjacent literals joined.
-/

namespace Stencil

namespace Construct

def enter : Construct → Call
  | conditional guard => .enterSection guard
  | inverted guard => .enterInverted guard
  | inclusion name => .enterPartial name
  | block name => .enterBlock name

def exit : Construct → Call
  | conditional _ => .exitSection
  | inverted _ => .exitInverted
  | inclusion _ => .exitPartial
  | block _ => .exitBlock

end Construct

/-- Events that spell out instructions, literal by literal. What comes of the template of a lambda
that returns text is left open. -/
inductive Spells : List Event → List Instruction → Prop where
  | nil : Spells [] []
  | literal (text : String) {rest : List Event} {more : List Instruction} : Spells rest more →
      Spells (.call (.literal text) :: rest) (.literal text :: more)
  | value (expr : Expr) (escaping : Escaping) {rest : List Event} {more : List Instruction} :
      Spells rest more →
      Spells (.call (.value expr escaping) :: rest) (.value expr escaping :: more)
  | construct (construct : Construct) {inner rest : List Event} {body more : List Instruction} :
      Spells inner body → Spells rest more →
      Spells (.call construct.enter :: (inner ++ .call construct.exit :: rest))
        (construct.close body :: more)
  | rawLambda {call : LambdaCall} (template : Except CompileError (List Event))
      {rest : List Event} {more : List Instruction} : call.kind = .raw → Spells rest more →
      Spells (.lambda call template :: rest) (.lambda call none :: more)
  | modelLambda {call : LambdaCall} {variableName : String} {inner rest : List Event}
      {body more : List Instruction} : call.kind = .model variableName → Spells inner body →
      Spells rest more →
      Spells (.lambda call (.ok inner) :: rest) (.lambda call (some body) :: more)

namespace Spells

theorem append {first second : List Event} {before after : List Instruction}
    (spellsFirst : Spells first before) (spellsSecond : Spells second after) :
    Spells (first ++ second) (before ++ after) := by
  induction spellsFirst with
  | nil => exact spellsSecond
  | literal text _ ih => exact .literal text ih
  | value expr escaping _ ih => exact .value expr escaping ih
  | construct construct inner _ _ ih =>
      simp only [List.cons_append, List.append_assoc]
      exact .construct construct inner ih
  | rawLambda template raw _ ih => exact .rawLambda template raw ih
  | modelLambda model inner _ _ ih => exact .modelLambda model inner ih

theorem one_literal (text : String) : Spells [.call (.literal text)] [.literal text] :=
  .literal text .nil

theorem enclose (construct : Construct) {inner : List Event} {body : List Instruction}
    (spells : Spells inner body) :
    Spells (.call construct.enter :: (inner ++ [.call construct.exit])) [construct.close body] :=
  .construct construct spells .nil

end Spells

mutual

def addJoined (written : List Instruction) : Instruction → List Instruction
  | .literal text => if text.isEmpty then written else Program.appendText text written
  | .value expr escaping => .value expr escaping :: written
  | .conditional guard body => .conditional guard (joinOnto [] body).reverse :: written
  | .inverted guard body => .inverted guard (joinOnto [] body).reverse :: written
  | .inclusion name body => .inclusion name (joinOnto [] body).reverse :: written
  | .block name body => .block name (joinOnto [] body).reverse :: written
  | .lambda call none => .lambda call none :: written
  | .lambda call (some body) => .lambda call (some (joinOnto [] body).reverse) :: written

def joinOnto (written : List Instruction) : List Instruction → List Instruction
  | [] => written
  | instruction :: rest => joinOnto (addJoined written instruction) rest

end

def joined (instructions : List Instruction) : List Instruction :=
  (joinOnto [] instructions).reverse

theorem addJoined_close (written : List Instruction) (construct : Construct)
    (body : List Instruction) :
    addJoined written (construct.close body) = construct.close (joined body) :: written := by
  cases construct <;> simp [Construct.close, addJoined, joined]

namespace Program

variable {program : Program}

theorem modifyCurrent_id (program : Program) :
    program.modifyCurrent (fun body => body) = program := by
  obtain ⟨name, written, unfinished⟩ := program
  cases unfinished <;> rfl

theorem modifyCurrent_modifyCurrent (program : Program)
    (first second : List Instruction → List Instruction) :
    (program.modifyCurrent first).modifyCurrent second =
      program.modifyCurrent fun body => second (first body) := by
  obtain ⟨name, written, unfinished⟩ := program
  cases unfinished <;> rfl

theorem pushText_eq (program : Program) (text : String) :
    program.pushText text = program.modifyCurrent fun body => addJoined body (.literal text) := by
  unfold pushText
  split
  · next empty => simp [addJoined, empty, modifyCurrent_id]
  · next filled => simp [addJoined, filled]

theorem call_enter (program : Program) (construct : Construct) :
    program.call construct.enter = program.openConstruct construct := by
  cases construct <;> rfl

theorem call_exit (program : Program) (construct : Construct) :
    program.call construct.exit = program.closeConstruct := by
  cases construct <;> rfl

theorem closeConstruct_openConstruct (program : Program) (construct : Construct)
    (change : List Instruction → List Instruction) :
    ((program.openConstruct construct).modifyCurrent change).closeConstruct =
      program.push (construct.close (change []).reverse) := rfl

def andThen (outcome : Program × Option CompileError)
    (next : Program → Program × Option CompileError) : Program × Option CompileError :=
  match outcome with
  | (program, none) => next program
  | (program, some error) => (program, some error)

theorem feed_cons (program : Program) (event : Event) (rest : List Event) :
    sink.feed program (event :: rest) =
      andThen (sink.feedEvent program event) (sink.feed · rest) := by
  simp only [Sink.feed]
  rcases sink.feedEvent program event with ⟨next, _ | error⟩
  all_goals rfl

theorem feed_append (program : Program) (first second : List Event) :
    sink.feed program (first ++ second) =
      andThen (sink.feed program first) (sink.feed · second) := by
  induction first generalizing program with
  | nil => simp [Sink.feed, andThen]
  | cons event rest ih =>
      rw [List.cons_append, feed_cons, feed_cons program event rest]
      rcases sink.feedEvent program event with ⟨next, _ | error⟩
      · exact ih next
      · rfl

def Accepts (events : List Event) : Prop := ∃ program, (sink.feed program events).2 = none

theorem accepts_of_append {first second : List Event} (accepts : Accepts (first ++ second)) :
    Accepts first ∧ Accepts second := by
  obtain ⟨program, success⟩ := accepts
  rw [feed_append] at success
  cases outcome : sink.feed program first with
  | mk next failure =>
      rw [outcome] at success
      cases failure with
      | none => exact ⟨⟨program, by rw [outcome]⟩, ⟨next, success⟩⟩
      | some error => simp [andThen] at success

theorem accepts_of_cons {event : Event} {rest : List Event} (accepts : Accepts (event :: rest)) :
    Accepts [event] ∧ Accepts rest :=
  accepts_of_append (by simpa using accepts)

theorem feed_call (program : Program) (call : Call) (rest : List Event) :
    sink.feed program (.call call :: rest) = sink.feed (program.call call) rest := rfl

def feedTemplate (template : Except CompileError (List Event)) (start : Program) :
    Program × Option CompileError :=
  match template with
  | .error error => (start, some error)
  | .ok events => sink.feed start events

theorem feed_lambda (program : Program) (call : LambdaCall)
    (template : Except CompileError (List Event)) (rest : List Event) :
    sink.feed program (.lambda call template :: rest) =
      andThen (program.lambda call (feedTemplate template)) (sink.feed · rest) := by
  rw [feed_cons]
  cases template <;> rfl

theorem accepts_model {call : LambdaCall} {variableName : String}
    {template : Except CompileError (List Event)} (model : call.kind = .model variableName)
    (accepts : Accepts [.lambda call template]) :
    ∃ events, template = .ok events ∧ Accepts events := by
  obtain ⟨program, success⟩ := accepts
  rw [feed_lambda] at success
  cases template with
  | error problem => simp [lambda, model, feedTemplate, andThen] at success
  | ok events =>
      refine ⟨events, rfl, empty call.name, ?_⟩
      cases outcome : sink.feed (empty call.name) events with
      | mk nested failure =>
          cases failure with
          | none => rfl
          | some error => simp [lambda, model, feedTemplate, outcome, andThen] at success

theorem feed_spells {events : List Event} {instructions : List Instruction}
    (spells : Spells events instructions) (program : Program) :
    sink.feed program events =
      (program.modifyCurrent (joinOnto · instructions), none) := by
  induction spells generalizing program with
  | nil => simp [Sink.feed, joinOnto, modifyCurrent_id]
  | literal text _ ih =>
      rw [feed_call, ih, call, pushText_eq, modifyCurrent_modifyCurrent]
      simp only [joinOnto]
  | value expr escaping _ ih =>
      rw [feed_call, ih, call, push, modifyCurrent_modifyCurrent]
      simp only [joinOnto, addJoined]
  | construct construct _ _ ihInner ihRest =>
      rw [feed_call, feed_append, ihInner, call_enter]
      simp only [andThen]
      rw [feed_call, call_exit, closeConstruct_openConstruct, ihRest, push,
        modifyCurrent_modifyCurrent]
      simp only [joinOnto, addJoined_close, joined]
  | @rawLambda call template rest more raw _ ih =>
      have taken : program.lambda call (feedTemplate template) =
          (program.push (.lambda call none), none) := by simp only [lambda, raw]
      rw [feed_lambda, taken, andThen, ih, push, modifyCurrent_modifyCurrent]
      simp only [joinOnto, addJoined]
  | @modelLambda call variableName inner rest body more model _ _ ihInner ihRest =>
      have nested : feedTemplate (.ok inner) (empty call.name) =
          (⟨call.name, joinOnto [] body, []⟩, none) := ihInner (empty call.name)
      have taken : program.lambda call (feedTemplate (.ok inner)) =
          (program.push (.lambda call (some (joined body))), none) := by
        simp only [lambda, model, nested]
        rfl
      rw [feed_lambda, taken, andThen, ihRest, push, modifyCurrent_modifyCurrent]
      simp only [joinOnto, addJoined, joined]

theorem ofEvents_spells {events : List Event} {instructions : List Instruction}
    (spells : Spells events instructions) (name : String) :
    ofEvents name events = .ok ⟨name, joinOnto [] instructions, []⟩ := by
  unfold ofEvents
  rw [feed_spells spells]
  rfl

theorem accepts_of_ofEvents {name : String} {events : List Event}
    (made : ofEvents name events = .ok program) : Accepts events := by
  unfold ofEvents at made
  split at made
  · next next outcome => exact ⟨empty name, by rw [outcome]⟩
  · simp at made

end Program

end Stencil
