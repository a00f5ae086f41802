import Stencil.Proofs.Compile.Included
import Stencil.Proofs.Program.WellBracketed

/-!
What tokens do. Main statement: a body is compiled in steps of three kinds. Some bring in an
included template, some the template of a lambda, and all others make calls that open a construct,
close the latest one or stand for themselves.
-/

namespace Stencil

def Call.isAround : Call → Bool
  | .enterPartial _ | .exitPartial => true
  | _ => false

namespace Compile

variable {setting : Setting} {nested? : Option Nested} {body : Body} {s next : State}
  {t : LineToken} {events : List Event}

/-- What a token asks for that takes another template to be compiled. -/
inductive Request where
  | inclusion (kind : FrameKind) (name : String) (position : Position) (indent : String)
      (blocks : GivenBlocks)
  | lambda (held : LambdaSection) (standalone : Bool)

/-- What a token asks for, if anything, and the state that it is answered in. -/
def request? (body : Body) (standalone : Bool) (s : State) (t : LineToken) :
    Option (Request × State) :=
  match s.mode with
  | .normal =>
      match t.tag? with
      | some (.inclusion, name) =>
          some (.inclusion .inclusion name t.token.position (s.pendingIndent.getD "") [],
            { s with pendingIndent := none })
      | _ => none
  | .parent call indent =>
      match call.push t.token with
      | .ok (last, true) =>
          some (.inclusion .parent last.parent last.position indent
            (last.givenBlocks :: body.blocks),
            { s with mode := .normal })
      | _ => none
  | .lambda held =>
      if held.opening = true ∧ t.role = .ignore then none
      else if t.token.kind = .tag .close held.name ∧ held.depth = 0 then
        some (.lambda held standalone, { s with mode := .normal })
      else none

def Request.answer (setting : Setting) (nested? : Option Nested) (body : Body) (s : State) :
    Request → Outcome
  | .inclusion kind name position indent blocks =>
      includeTemplate setting nested? body s kind name position indent blocks
  | .lambda held standalone => callLambda setting nested? body s held standalone

theorem of_tag? {kind : TagKind} {name : String} (tag : t.tag? = some (kind, name)) :
    t.role = .normal ∧ t.token.kind = .tag kind name := by
  unfold LineToken.tag? at tag
  split at tag
  · next role => exact ⟨role, Token.kind_of_tag? tag⟩
  · cases tag

theorem readPlain_eq (apart : ∀ name, t.tag? ≠ some (.inclusion, name)) :
    readPlain setting nested? body s t = readPlain setting none body s t := by
  unfold readPlain
  cases role : t.role with
  | normal =>
      dsimp only
      cases found : t.token.kind with
      | tag kind name =>
          cases kind with
          | inclusion =>
              exact absurd (by simp [LineToken.tag?, Token.tag?, role, found]) (apart name)
          | _ => rfl
      | _ => rfl
  | _ => rfl

theorem readLambda_eq {held : LambdaSection} (closing standalone : Bool) :
    readLambda setting nested? body s held t closing standalone =
      if ¬(held.opening = true ∧ t.role = .ignore) ∧ t.token.kind = .tag .close held.name ∧
          held.depth = 0 then
        callLambda setting nested? body { s with mode := .normal } held standalone
      else readLambda setting none body s held t closing standalone := by
  unfold readLambda
  by_cases skipped : held.opening = true ∧ t.role = .ignore
  · simp [skipped]
  · cases found : t.token.kind with
    | tag kind name =>
        cases kind with
        | close =>
            by_cases outermost : held.depth = 0
            · by_cases named : name = held.name <;> simp [skipped, outermost, named]
            · simp [outermost]
        | _ => simp
    | _ => simp

theorem readToken_eq (closing standalone : Bool) :
    readToken setting nested? body closing standalone s t =
      match request? body standalone s t with
      | some (request, s) => request.answer setting nested? body s
      | none => readToken setting none body closing standalone s t := by
  obtain ⟨scope, names, atLineStart, pendingIndent, openTags, mode⟩ := s
  cases mode with
  | normal =>
      by_cases tag : ∃ name, t.tag? = some (.inclusion, name)
      · obtain ⟨name, tag⟩ := tag
        obtain ⟨role, kind⟩ := of_tag? tag
        simp only [readToken, request?, tag, readPlain, role, kind, plainTag, TagKind.isIndented,
          if_true, Request.answer]
      · have apart (name : String) : t.tag? ≠ some (.inclusion, name) := fun same =>
          tag ⟨name, same⟩
        have silent : request? body standalone
            ⟨scope, names, atLineStart, pendingIndent, openTags, .normal⟩ t = none := by
          unfold request?
          dsimp only
          split
          · next name same => exact absurd same (apart name)
          · rfl
        rw [silent]
        exact readPlain_eq apart
  | parent call indent =>
      simp only [readToken, request?, readParent]
      rcases call.push t.token with problem | ⟨last, _ | _⟩
      all_goals rfl
  | lambda held =>
      simp only [readToken, request?]
      rw [readLambda_eq]
      by_cases skipped : held.opening = true ∧ t.role = .ignore
      · simp [skipped]
      · by_cases ends : t.token.kind = .tag .close held.name ∧ held.depth = 0
        · simp [skipped, ends, Request.answer]
        · simp [skipped, ends]

def OpenTag.exits (tag : OpenTag) : List Call :=
  match tag.kind with
  | .openInverted => [.exitInverted]
  | .openBlock => [.exitBlock]
  | _ => List.replicate tag.guards .exitSection

def State.owed (s : State) : List Call := s.openTags.flatMap OpenTag.exits

structure Moves (s : State) (events : List Event) (next : State) : Prop where
  plain : ∀ event ∈ events, ∃ call : Call, event = .call call ∧ call.isAround = false
  owed : owedAfter s.owed events = some next.owed

def OnlyWrites (events : List Event) : Prop :=
  ∀ event ∈ events, ∃ call : Call, event = .call call ∧ call.isAround = false ∧
    call.exit? = none ∧ call.isExit = false

theorem OnlyWrites.append {more : List Event} (writes : OnlyWrites events)
    (further : OnlyWrites more) : OnlyWrites (events ++ more) :=
  List.forall_mem_append.mpr ⟨writes, further⟩

theorem writes_literal (text : String) : OnlyWrites [.call (.literal text)] :=
  List.forall_mem_singleton.mpr ⟨_, rfl, rfl, rfl, rfl⟩

theorem writes_value (expr : Expr) (escaping : Escaping) :
    OnlyWrites [.call (.value expr escaping)] :=
  List.forall_mem_singleton.mpr ⟨_, rfl, rfl, rfl, rfl⟩

theorem writes_indentLine (body : Body) (s : State) : OnlyWrites (indentLine body s).1 := by
  unfold indentLine
  dsimp only
  split
  · exact writes_literal _
  · exact List.forall_mem_nil _

theorem OnlyWrites.owedAfter (writes : OnlyWrites events) (owed : List Call) :
    owedAfter owed events = some owed := by
  induction events with
  | nil => rfl
  | cons event rest ih =>
      obtain ⟨⟨call, rfl, -, opens, exits⟩, further⟩ := List.forall_mem_cons.mp writes
      have kept : call.settle owed = some owed :=
        Call.settle_eq_some.mpr (.inr (.inr ⟨opens, exits, rfl⟩))
      rw [owedAfter_cons, Event.settle, kept, Option.bind_some]
      exact ih further

theorem Moves.write (writes : OnlyWrites events) (openTags : next.openTags = s.openTags) :
    Moves s events next := by
  constructor
  · intro event member
    obtain ⟨call, same, inside, -⟩ := writes event member
    exact ⟨call, same, inside⟩
  · rw [writes.owedAfter, State.owed, State.owed, openTags]

theorem Moves.silent (openTags : next.openTags = s.openTags) : Moves s [] next :=
  .write (List.forall_mem_nil _) openTags

theorem owedAfter_guards (guards : List Guard) (owed : List Call) :
    owedAfter owed (guards.map fun guard => .call (.enterSection guard)) =
      some (List.replicate guards.length .exitSection ++ owed) := by
  induction guards generalizing owed with
  | nil => rfl
  | cons guard guards ih =>
      have entered : (Call.enterSection guard).settle owed = some (.exitSection :: owed) :=
        settle_enter (.conditional guard) owed
      rw [List.map_cons, owedAfter_cons, Event.settle, entered, Option.bind_some, ih,
        List.length_cons, List.replicate_succ', List.append_assoc]
      rfl

theorem leave_eq (tag : OpenTag) : tag.leave = tag.exits.map Event.call := by
  unfold OpenTag.leave OpenTag.exits
  cases tag.kind <;> simp

theorem OpenTag.eq_of_mem_exits {tag : OpenTag} {exit : Call} (member : exit ∈ tag.exits) :
    exit = .exitSection ∨ exit = .exitInverted ∨ exit = .exitBlock := by
  unfold OpenTag.exits at member
  split at member
  · exact .inr (.inl (List.mem_singleton.mp member))
  · exact .inr (.inr (List.mem_singleton.mp member))
  · exact .inl (List.mem_replicate.mp member).2

theorem isExit_of_mem_exits {tag : OpenTag} {exit : Call} (member : exit ∈ tag.exits) :
    exit.exit? = none ∧ exit.isExit = true := by
  obtain rfl | rfl | rfl := tag.eq_of_mem_exits member <;> exact ⟨rfl, rfl⟩

theorem owedAfter_exits {exits : List Call}
    (each : ∀ exit ∈ exits, exit.exit? = none ∧ exit.isExit = true) (owed : List Call) :
    owedAfter (exits ++ owed) (exits.map Event.call) = some owed := by
  induction exits with
  | nil => rfl
  | cons exit rest ih =>
      obtain ⟨⟨opens, exits⟩, further⟩ := List.forall_mem_cons.mp each
      have closed : exit.settle (exit :: (rest ++ owed)) = some (rest ++ owed) :=
        Call.settle_eq_some.mpr (.inr (.inl ⟨opens, exits, rfl⟩))
      rw [List.map_cons, List.cons_append, owedAfter_cons, Event.settle, closed, Option.bind_some]
      exact ih further

theorem owedAfter_leave (tag : OpenTag) (owed : List Call) :
    owedAfter (tag.exits ++ owed) tag.leave = some owed := by
  rw [leave_eq]
  exact owedAfter_exits (fun exit => isExit_of_mem_exits) owed

theorem plain_leave (tag : OpenTag) :
    ∀ event ∈ tag.leave, ∃ call : Call, event = .call call ∧ call.isAround = false := by
  intro event member
  rw [leave_eq] at member
  obtain ⟨exit, owed, rfl⟩ := List.mem_map.mp member
  obtain rfl | rfl | rfl := tag.eq_of_mem_exits owed <;> exact ⟨_, rfl, rfl⟩

inductive OpenTag.EnteredBy : OpenTag → List Event → Prop where
  | openSection {name : String} {position : Position} {scope : Scope} {names : FreshNames}
      (guards : List Guard) :
      EnteredBy ⟨.openSection, name, position, guards.length, scope, names⟩
        (guards.map fun guard => .call (.enterSection guard))
  | openInverted {name : String} {position : Position} {scope : Scope} {names : FreshNames}
      (guard : Guard) :
      EnteredBy ⟨.openInverted, name, position, 1, scope, names⟩ [.call (.enterInverted guard)]
  | openBlock {name : String} {position : Position} {scope : Scope} {names : FreshNames} :
      EnteredBy ⟨.openBlock, name, position, 0, scope, names⟩ [.call (.enterBlock name)]

theorem OpenTag.EnteredBy.plain {tag : OpenTag} (entered : tag.EnteredBy events) :
    ∀ event ∈ events, ∃ call : Call, event = .call call ∧ call.isAround = false := by
  cases entered with
  | openSection guards =>
      intro event member
      obtain ⟨guard, -, rfl⟩ := List.mem_map.mp member
      exact ⟨_, rfl, rfl⟩
  | openInverted guard | openBlock => exact List.forall_mem_singleton.mpr ⟨_, rfl, rfl⟩

theorem OpenTag.EnteredBy.owedAfter {tag : OpenTag} (entered : tag.EnteredBy events)
    (owed : List Call) : Stencil.owedAfter owed events = some (tag.exits ++ owed) := by
  cases entered with
  | openSection guards => exact owedAfter_guards guards owed
  | openInverted guard | openBlock => rfl

/-- What a token does that asks for nothing. -/
inductive Effect (body : Body) (s : State) (t : LineToken) : List Event → State → Prop where
  | silent {next : State} : next.openTags = s.openTags → next.atLineStart = s.atLineStart →
      Effect body s t [] next
  | trimmed {next : State} : s.mode = .normal → t.role = .ignore → t.token.isNewline = true →
      next.openTags = s.openTags → Effect body s t [] next
  | written {event : Event} {next : State} : OnlyWrites [event] → next.openTags = s.openTags →
      next.atLineStart = false → Effect body s t ((indentLine body s).1 ++ [event]) next
  | ended {next : State} (ending : LineEnding) : next.openTags = s.openTags →
      Effect body s t [.call (.literal ending.text)] next
  | opened {tag : OpenTag} {events : List Event} {next : State} : tag.EnteredBy events →
      next.openTags = tag :: s.openTags → next.atLineStart = s.atLineStart →
      Effect body s t events next
  | closed {tag : OpenTag} {next : State} : s.openTags = tag :: next.openTags →
      next.atLineStart = s.atLineStart → Effect body s t tag.leave next

section

variable {name : String} {purpose : NameUse} {escaping : Escaping} {position : Position}

theorem variableTag_effect
    (done : variableTag setting body { s with pendingIndent := none } name purpose escaping
      position = .ok (events, next)) : Effect body s t events next := by
  obtain ⟨⟨found, names⟩, -, done⟩ := bind_eq_ok.mp done
  cases found with
  | value found =>
      cases done
      exact .written (writes_value _ _) rfl rfl
  | _ =>
      cases done
      exact .silent rfl rfl

theorem sectionTag_effect
    (done : sectionTag setting body { s with pendingIndent := none } name position =
      .ok (events, next)) : Effect body s t events next := by
  obtain ⟨⟨found, names⟩, -, done⟩ := bind_eq_ok.mp done
  cases found with
  | openSection guards scope =>
      cases done
      exact .opened (.openSection guards) rfl rfl
  | _ =>
      cases done
      exact .silent rfl rfl

theorem invertedTag_effect
    (done : invertedTag setting body { s with pendingIndent := none } name position =
      .ok (events, next)) : Effect body s t events next := by
  obtain ⟨⟨found, names⟩, -, done⟩ := bind_eq_ok.mp done
  cases found with
  | openInverted guard scope =>
      cases done
      exact .opened (.openInverted guard) rfl rfl
  | _ =>
      cases done
      exact .silent rfl rfl

theorem closeTag_effect
    (done : closeTag body { s with pendingIndent := none } name position = .ok (events, next)) :
    Effect body s t events next := by
  unfold closeTag at done
  split at done
  · cases done
  · next tag outer around =>
      split at done
      · cases done
      · cases done
        exact .closed around rfl

theorem plainTag_effect {kind : TagKind}
    (done : plainTag setting none body s kind name position = .ok (events, next)) :
    Effect body s t events next := by
  unfold plainTag at done
  cases kind with
  | escaped | unescaped => exact variableTag_effect done
  | openSection => exact sectionTag_effect done
  | openInverted => exact invertedTag_effect done
  | close => exact closeTag_effect done
  | inclusion => cases done
  | openParent =>
      cases done
      exact .silent rfl rfl
  | openBlock =>
      cases done
      exact .opened .openBlock rfl rfl

end

theorem readPlain_effect (normal : s.mode = .normal)
    (done : readPlain setting none body s t = .ok (events, next)) :
    Effect body s t events next := by
  unfold readPlain at done
  cases role : t.role with
  | ignore =>
      rw [role] at done
      cases done
      cases newline : t.token.isNewline with
      | true => exact .trimmed normal role newline rfl
      | false => exact .silent rfl rfl
  | indent =>
      rw [role] at done
      cases done
      split <;> exact .silent rfl rfl
  | eof =>
      rw [role] at done
      cases done
      exact .silent rfl rfl
  | normal =>
      rw [role] at done
      cases kind : t.token.kind with
      | text text | whitespace text | special mark =>
          rw [kind] at done
          cases done
          exact .written (writes_literal _) rfl rfl
      | newline ending =>
          rw [kind] at done
          cases done
          exact .ended ending rfl
      | comment _ | delimiters _ _ | eof =>
          rw [kind] at done
          cases done
          exact .silent rfl rfl
      | tag kind name =>
          simp only [kind] at done
          exact plainTag_effect done

/-- A token that has no way to ask for nested templates, and yet does not fail. -/
theorem readToken_effect {closing standalone : Bool}
    (done : readToken setting none body closing standalone s t = .ok (events, next)) :
    Effect body s t events next := by
  unfold readToken at done
  split at done
  · next normal => exact readPlain_effect normal done
  · unfold readParent at done
    split at done
    · cases done
    · cases done
      exact .silent rfl rfl
    · cases done
  · -- Every branch passes over the token, keeps its text, or fails.
    unfold readLambda at done
    dsimp only [callLambda] at done
    repeat' split at done
    all_goals first
      | cases done; done
      | cases done
        exact .silent rfl rfl

theorem Effect.moves (effect : Effect body s t events next) : Moves s events next := by
  cases effect with
  | silent openTags _ | trimmed _ _ _ openTags => exact .silent openTags
  | written writes openTags _ => exact .write ((writes_indentLine body s).append writes) openTags
  | ended ending openTags => exact .write (writes_literal _) openTags
  | opened entered openTags _ =>
      refine ⟨entered.plain, ?_⟩
      rw [entered.owedAfter, State.owed, State.owed, openTags, List.flatMap_cons]
  | closed openTags _ =>
      refine ⟨plain_leave _, ?_⟩
      rw [State.owed, openTags, List.flatMap_cons]
      exact owedAfter_leave _ _

def lambdaIndent (body : Body) (s : State) (standalone : Bool) : List Event × State :=
  if standalone && s.atLineStart then ([], s) else indentLine body s

def lambdaCall (body : Body) (s : State) (held : LambdaSection) (standalone : Bool) : LambdaCall :=
  { name := held.name
    body := held.body
    current := s.scope.currentExpr
    escaping := if held.decl.escaped then .escaped else .raw
    kind := match held.decl.returns with
      | .raw => .raw
      | .model _ => .model (s.names.fresh "model").1
    indent := if standalone && s.atLineStart then body.indent else "" }

def Body.enterLambda (body : Body) (s : State) (held : LambdaSection) (source : String) : Body :=
  { stack := body.stack.enter .lambda held.name
    scope := match held.decl.returns with
      | .raw => s.scope
      | .model shape => .value ⟨.var (s.names.fresh "model").1, shape⟩ :: s.scope
    names := match held.decl.returns with
      | .raw => s.names
      | .model _ => (s.names.fresh "model").2
    indent := ""
    blocks := []
    atLineStart := true
    source }

def lambdaOutcome (setting : Setting) (nested : Nested) (body : Body) (s : State)
    (held : LambdaSection) : Except CompileError (List Event) := do
  let source ← lambdaTemplate setting (body.stack.enter .lambda held.name) held
  let (events, _) ← nested (body.enterLambda s held source)
  return events

theorem callLambda_eq (nested : Nested) (held : LambdaSection) (standalone : Bool) :
    callLambda setting (some nested) body s held standalone =
      .ok ((lambdaIndent body s standalone).1 ++
          [.lambda (lambdaCall body s held standalone) (lambdaOutcome setting nested body s held)],
        (lambdaIndent body s standalone).2) := by
  unfold callLambda lambdaCall lambdaOutcome Body.enterLambda
  cases held.decl.returns <;> rfl

theorem writes_lambdaIndent (body : Body) (s : State) (standalone : Bool) :
    OnlyWrites (lambdaIndent body s standalone).1 := by
  unfold lambdaIndent
  split
  · exact List.forall_mem_nil _
  · exact writes_indentLine body s

theorem lambdaIndent_openTags (body : Body) (s : State) (standalone : Bool) :
    (lambdaIndent body s standalone).2.openTags = s.openTags := by
  unfold lambdaIndent
  split <;> rfl

theorem request?_keeps {standalone : Bool} {request : Request} {answered : State}
    (asks : request? body standalone s t = some (request, answered)) :
    answered.openTags = s.openTags ∧ answered.atLineStart = s.atLineStart := by
  unfold request? at asks
  split at asks
  · split at asks
    · cases asks
      exact ⟨rfl, rfl⟩
    · cases asks
  · split at asks
    · cases asks
      exact ⟨rfl, rfl⟩
    · cases asks
  · split at asks
    · cases asks
    · split at asks
      · cases asks
        exact ⟨rfl, rfl⟩
      · cases asks

/-- What a token may do. It makes calls and moves on, or it brings in what has come of another body:
as an inclusion, or as the template of a lambda. -/
inductive Step (nested? : Option Nested) (s : State) : List Event → State → Prop where
  | moves {events : List Event} {next : State} : Moves s events next → Step nested? s events next
  | inclusion {nested : Nested} {inner : Body} {events : List Event} {atLineStart : Bool}
      {next : State} (name : String) : nested? = some nested →
      nested inner = .ok (events, atLineStart) → next.openTags = s.openTags →
      Step nested? s (.call (.enterPartial name) :: (events ++ [.call .exitPartial])) next
  | lambda {nested : Nested} {front : List Event} {outcome : Except CompileError (List Event)}
      {next : State} (call : LambdaCall) : nested? = some nested → OnlyWrites front →
      (∀ events, outcome = .ok events →
        ∃ inner atLineStart, nested inner = .ok (events, atLineStart)) →
      next.openTags = s.openTags → Step nested? s (front ++ [.lambda call outcome]) next

inductive Steps (nested? : Option Nested) : State → List Event → State → Prop where
  | refl (s : State) : Steps nested? s [] s
  | step {s middle next : State} {events more : List Event} : Step nested? s events middle →
      Steps nested? middle more next → Steps nested? s (events ++ more) next

theorem Steps.trans {middle : State} {more : List Event} (steps : Steps nested? s events middle)
    (further : Steps nested? middle more next) : Steps nested? s (events ++ more) next := by
  induction steps with
  | refl => exact further
  | step first _ ih =>
      rw [List.append_assoc]
      exact .step first (ih further)

theorem Steps.single (step : Step nested? s events next) : Steps nested? s events next := by
  have steps : Steps nested? s (events ++ []) next := .step step (.refl next)
  rwa [List.append_nil] at steps

theorem includeTemplate_step {kind : FrameKind} {name : String} {position : Position}
    {indent : String} {blocks : GivenBlocks}
    (done : includeTemplate setting nested? body s kind name position indent blocks =
      .ok (events, next)) : Step nested? s events next := by
  have after : next = { s with atLineStart := next.atLineStart } := includeTemplate_state done
  have openTags : next.openTags = s.openTags := by rw [after]
  obtain ⟨nested, template, inner, found, -, -, compiled, same⟩ := includeTemplate_ok done
  dsimp only at same
  subst same
  exact .inclusion name found compiled openTags

theorem callLambda_step {held : LambdaSection} {standalone : Bool}
    (done : callLambda setting nested? body s held standalone = .ok (events, next)) :
    Step nested? s events next := by
  cases nested? with
  | none => cases done
  | some nested =>
      rw [callLambda_eq] at done
      cases done
      refine .lambda (lambdaCall body s held standalone) rfl (writes_lambdaIndent body s standalone)
        ?_ (lambdaIndent_openTags body s standalone)
      intro inner outcome
      obtain ⟨source, -, compiled⟩ := bind_eq_ok.mp outcome
      obtain ⟨⟨events, atLineStart⟩, compiled, same⟩ := bind_eq_ok.mp compiled
      cases same
      exact ⟨_, _, compiled⟩

theorem Step.of_openTags {answered : State} (step : Step nested? answered events next)
    (same : answered.openTags = s.openTags) : Step nested? s events next := by
  cases step with
  | moves moves =>
      refine .moves ⟨moves.plain, ?_⟩
      have owed : s.owed = answered.owed := by rw [State.owed, State.owed, same]
      rw [owed]
      exact moves.owed
  | inclusion name found compiled openTags =>
      exact .inclusion name found compiled (openTags.trans same)
  | lambda call found writes compiled openTags =>
      exact .lambda call found writes compiled (openTags.trans same)

theorem readToken_step {closing standalone : Bool}
    (done : readToken setting nested? body closing standalone s t = .ok (events, next)) :
    Step nested? s events next := by
  rw [readToken_eq] at done
  cases asks : request? body standalone s t with
  | none =>
      rw [asks] at done
      exact .moves (readToken_effect done).moves
  | some asked =>
      obtain ⟨request, answered⟩ := asked
      rw [asks] at done
      refine Step.of_openTags ?_ (request?_keeps asks).1
      cases request with
      | inclusion kind name position indent blocks => exact includeTemplate_step done
      | lambda held standalone => exact callLambda_step done

theorem runAll_steps {α : Type} {step : State → α → Outcome} {items : List α}
    (steps : ∀ s item events next, step s item = .ok (events, next) → Steps nested? s events next)
    (done : runAll step s items = .ok (events, next)) : Steps nested? s events next := by
  induction items generalizing s events with
  | nil =>
      cases done
      exact .refl _
  | cons item rest ih =>
      obtain ⟨⟨first, middle⟩, here, done⟩ := bind_eq_ok.mp done
      obtain ⟨⟨more, last⟩, further, done⟩ := bind_eq_ok.mp done
      cases done
      exact (steps _ _ _ _ here).trans (ih further)

theorem readGroup_steps {group : LineGroup}
    (done : readGroup setting nested? body s group = .ok (events, next)) :
    Steps nested? s events next := by
  obtain ⟨⟨events, last⟩, run, done⟩ := bind_eq_ok.mp done
  cases done
  have steps : Steps nested? s events last :=
    runAll_steps (fun _ _ _ _ done => .single (readToken_step done)) run
  have left : Moves last [] (endGroup last) := by
    refine .silent ?_
    unfold endGroup
    split <;> rfl
  have whole := steps.trans (.single (.moves left))
  rwa [List.append_nil] at whole

theorem compileWith_steps {atLineStart : Bool}
    (done : compileWith setting nested? body = .ok (events, atLineStart)) :
    ∃ last, Steps nested? (.start body) events last ∧ last.openTags = [] := by
  obtain ⟨groups, -, done⟩ := bind_eq_ok.mp done
  obtain ⟨⟨events, last⟩, run, done⟩ := bind_eq_ok.mp done
  obtain ⟨⟨⟩, closed, done⟩ := bind_eq_ok.mp done
  cases done
  exact ⟨last, runAll_steps (fun _ _ _ _ => readGroup_steps) run, (checkClosed_iff.mp closed).2⟩

end Compile

end Stencil
