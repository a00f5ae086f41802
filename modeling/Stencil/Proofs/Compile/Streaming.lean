import Stencil.Proofs.Compile.Requests

/-!
Composing straight into a sink, with the template of a lambda compiled whenever the sink asks for
it. Main statement: what an observer is told that way is what a compile has to tell.
-/

namespace Stencil

/-- A sink that is also told which templates are entered. -/
structure Observer (σ : Type) extends Sink σ where
  enter : σ → TemplateStack → σ

/-- What is done to the state of a sink, up to an error or a result. -/
abbrev Delivery (σ : Type) := ExceptT CompileError (StateM σ)

def TemplateStack.MayEnter (stack : TemplateStack) (kind : FrameKind) (name : String) : Prop :=
  kind = .inclusion → stack.contains name = false

namespace Delivery

variable {σ α β : Type}

def on (delivery : Delivery σ α) (st : σ) : Except CompileError α × σ :=
  (ExceptT.run delivery).run st

def ofAction (action : σ → σ × Option CompileError) : Delivery σ Unit :=
  ExceptT.mk fun st =>
    match action st with
    | (after, none) => (.ok (), after)
    | (after, some error) => (.error error, after)

def action (delivery : Delivery σ α) (st : σ) : σ × Option CompileError :=
  ((delivery.on st).2, failure? (delivery.on st).1)

theorem on_bind (first : Delivery σ α) (next : α → Delivery σ β) (st : σ) :
    (first >>= next).on st =
      match first.on st with
      | (.ok value, after) => (next value).on after
      | (.error error, after) => (.error error, after) := by
  simp only [on, ExceptT.run, StateT.run, bind, ExceptT.bind, ExceptT.mk, StateT.bind,
    ExceptT.bindCont]
  rcases first st with ⟨_ | _, after⟩ <;> rfl

theorem on_ofAction (action : σ → σ × Option CompileError) (st : σ) :
    (ofAction action).on st =
      ((match (action st).2 with
        | none => .ok ()
        | some error => .error error), (action st).1) := by
  simp only [on, ofAction, ExceptT.run, ExceptT.mk, StateT.run]
  rcases action st with ⟨after, _ | error⟩ <;> rfl

end Delivery

namespace Observer

variable {σ : Type} (observer : Observer σ)

def tell (events : List Event) : Delivery σ Unit := .ofAction fun st => observer.feed st events

def entering (stack : TemplateStack) : Delivery σ Unit :=
  .ofAction fun st => (observer.enter st stack, none)

def invoke (call : LambdaCall) (template : Delivery σ Unit) : Delivery σ Unit :=
  .ofAction fun st => observer.lambda st call template.action

end Observer

namespace Compile

section

variable {σ : Type} (observer : Observer σ) (setting : Setting)
  (nested? : Option (Body → Delivery σ Bool)) (body : Body)

def admitted (kind : FrameKind) (name : String) (position : Position) :
    Except CompileError Template := do
  let template ← setting.library.fetch name body.stack position
  if kind ≠ .parent && body.stack.contains template.name then
    .error (.recursiveInclude template.name position body.stack.describe)
  else .ok template

def composeInclusion (s : State) (kind : FrameKind) (name : String) (position : Position)
    (indent : String) (blocks : GivenBlocks) : Delivery σ State :=
  match nested? with
  | none => throw (depthError setting body name position)
  | some nested => do
      let template ← admitted setting body kind name position
      observer.entering (body.stack.enter kind template.name)
      observer.tell [.call (.enterPartial name)]
      let atLineStart ← nested (body.enter s kind template indent blocks)
      observer.tell [.call .exitPartial]
      return { s with atLineStart }

def composeLambda (s : State) (held : LambdaSection) (standalone : Bool) : Delivery σ State :=
  match nested? with
  | none => throw (depthError setting body held.name held.position)
  | some nested => do
      observer.tell (lambdaIndent body s standalone).1
      observer.entering (body.stack.enter .lambda held.name)
      observer.invoke (lambdaCall body s held standalone) do
        let source ← lambdaTemplate setting (body.stack.enter .lambda held.name) held
        let _ ← nested (body.enterLambda s held source)
        return ()
      return (lambdaIndent body s standalone).2

def composeToken (closing standalone : Bool) (s : State) (t : LineToken) : Delivery σ State :=
  match request? body standalone s t with
  | some (.inclusion kind name position indent blocks, s) =>
      composeInclusion observer setting nested? body s kind name position indent blocks
  | some (.lambda held standalone, s) =>
      composeLambda observer setting nested? body s held standalone
  | none => do
      let (events, s) ← readToken setting none body closing standalone s t
      observer.tell events
      return s

def composeGroup (s : State) (g : LineGroup) : Delivery σ State := do
  let closing := closesLambda s.mode g
  let standalone := closing && 1 < g.length
  let s ← g.foldlM (composeToken observer setting nested? body closing standalone) s
  return endGroup s

def composeWith : Delivery σ Bool := do
  let groups ← groups body
  let s ← groups.foldlM (composeGroup observer setting nested? body) (State.start body)
  checkClosed body s
  return s.atLineStart

end

/-- Composes a body with all that is nested in it, for so many levels, and further down in some
other way. At each level it is checked whether templates are nested as deeply as they may be. -/
def composeUpTo {σ : Type} (observer : Observer σ) (setting : Setting)
    (deeper : Body → Delivery σ Bool) : Nat → Body → Delivery σ Bool
  | 0, body => deeper body
  | levels + 1, body =>
      composeWith observer setting
        (if setting.options.maxIncludeDepth < body.stack.depth then none
          else some (composeUpTo observer setting deeper levels)) body

variable {σ α β : Type} {observer : Observer σ} {setting : Setting} {body : Body} {s : State}
  {admits : TemplateStack → Prop} {rel : σ → Except CompileError (List Event) → σ → Prop}

/-- That a relation tells what becomes of an observer's state when it is told events, or something
that comes to an error. It is told of no stacks but some. -/
structure Faithful (observer : Observer σ) (admits : TemplateStack → Prop)
    (rel : σ → Except CompileError (List Event) → σ → Prop) : Prop where
  nothing : ∀ st, rel st (.ok []) st
  failed : ∀ st error, rel st (.error error) st
  append : ∀ {st middle after events more}, rel st (.ok events) middle → rel middle more after →
    rel st (more.map (events ++ ·)) after
  enter : ∀ st stack, admits stack → rel st (.ok []) (observer.enter st stack)
  call : ∀ st call, rel st (.ok [.call call]) (observer.call st call)
  lambda : ∀ {template outcome} (st call), (∀ inner, (template inner).2 = failure? outcome ∧
    rel inner outcome (template inner).1) → (observer.lambda st call template).2 = none ∧
    rel st (.ok [.lambda call outcome]) (observer.lambda st call template).1

def Delivers (rel : σ → Except CompileError (List Event) → σ → Prop) (delivery : Delivery σ α)
    (outcome : Except CompileError (List Event × α)) : Prop :=
  ∀ st, (delivery.on st).1 = outcome.map Prod.snd ∧ rel st (outcome.map Prod.fst) (delivery.on st).2

def andThen (first : Except CompileError (List Event × α))
    (next : α → Except CompileError (List Event × β)) : Except CompileError (List Event × β) := do
  let (events, value) ← first
  let (more, result) ← next value
  return (events ++ more, result)

theorem includeTemplate_admitted (nested : Nested) (s : State) (kind : FrameKind) (name : String)
    (position : Position) (indent : String) (blocks : GivenBlocks) :
    includeTemplate setting (some nested) body s kind name position indent blocks = do
      let template ← admitted setting body kind name position
      let (events, atLineStart) ← nested (body.enter s kind template indent blocks)
      return (.call (.enterPartial name) :: events ++ [.call .exitPartial],
        { s with atLineStart }) := by
  unfold includeTemplate admitted
  cases setting.library.fetch name body.stack position with
  | error problem => rfl
  | ok template =>
      simp only [ok_bind]
      split <;> rfl

theorem mayEnter_of_admitted {kind : FrameKind} {name : String} {position : Position}
    {template : Template} (found : admitted setting body kind name position = .ok template) :
    body.stack.MayEnter kind template.name := by
  rintro rfl
  obtain ⟨other, -, found⟩ := bind_eq_ok.mp found
  split at found
  · cases found
  · next apart =>
      cases found
      simpa using apart

theorem OnlyWrites.calls {events : List Event} (writes : OnlyWrites events) :
    ∀ event ∈ events, ∃ call, event = .call call := by
  intro event member
  obtain ⟨call, same, -⟩ := writes event member
  exact ⟨call, same⟩

theorem Moves.calls {events : List Event} {next : State} (moves : Moves s events next) :
    ∀ event ∈ events, ∃ call, event = .call call := by
  intro event member
  obtain ⟨call, same, -⟩ := moves.plain event member
  exact ⟨call, same⟩

theorem andThen_ok (events : List Event) (value : α)
    (next : α → Except CompileError (List Event × β)) :
    andThen (.ok (events, value)) next =
      (next value).map (Prod.map (events ++ ·) id) := by
  rw [andThen, ok_bind]
  dsimp only
  cases next value <;> rfl

theorem delivers_change {action : σ → σ × Option CompileError} {events : List Event}
    (done : ∀ st, (action st).2 = none ∧ rel st (.ok events) (action st).1) :
    Delivers rel (.ofAction action) (.ok (events, ())) := by
  intro st
  obtain ⟨succeeds, told⟩ := done st
  rw [Delivery.on_ofAction, succeeds]
  exact ⟨rfl, told⟩

namespace Faithful

variable (faithful : Faithful observer admits rel)
include faithful

theorem delivers_pure (value : α) : Delivers rel (pure value) (.ok ([], value)) := by
  intro st
  exact ⟨rfl, faithful.nothing st⟩

theorem delivers_throw (error : CompileError) :
    Delivers rel (throw error : Delivery σ α) (.error error) := by
  intro st
  exact ⟨rfl, faithful.failed st error⟩

theorem delivers_bind {first : Delivery σ α} {next : α → Delivery σ β}
    {outcome : Except CompileError (List Event × α)}
    {further : α → Except CompileError (List Event × β)} (delivers : Delivers rel first outcome)
    (delivers_next : ∀ value, Delivers rel (next value) (further value)) :
    Delivers rel (first >>= next) (andThen outcome further) := by
  intro st
  have told := delivers st
  rw [Delivery.on_bind]
  generalize first.on st = reached at told ⊢
  obtain ⟨value, middle⟩ := reached
  cases outcome with
  | error problem =>
      obtain ⟨rfl, here⟩ := told
      exact ⟨rfl, here⟩
  | ok told_here =>
      obtain ⟨events, result⟩ := told_here
      obtain ⟨rfl, here⟩ := told
      obtain ⟨same, later⟩ := delivers_next result middle
      have whole := faithful.append here later
      rw [andThen_ok]
      generalize further result = ending at same whole ⊢
      cases ending <;> exact ⟨same, whole⟩

theorem delivers_map {first : Delivery σ α} {outcome : Except CompileError (List Event × α)}
    (delivers : Delivers rel first outcome) (change : α → β) :
    Delivers rel (do let value ← first; return change value)
      (outcome.map (Prod.map id change)) := by
  have whole : Delivers rel (do let value ← first; return change value)
      (andThen outcome fun value => .ok ([], change value)) :=
    faithful.delivers_bind delivers fun value => faithful.delivers_pure (change value)
  have same : (andThen outcome fun value => .ok ([], change value)) =
      outcome.map (Prod.map id change) := by
    cases outcome with
    | error problem => rfl
    | ok result =>
        obtain ⟨events, value⟩ := result
        rw [andThen_ok]
        simp [Except.map]
  rwa [same] at whole

theorem delivers_told {first : Delivery σ Unit} {next : Delivery σ β} {events : List Event}
    {outcome : Except CompileError (List Event × β)} (told : Delivers rel first (.ok (events, ())))
    (delivers : Delivers rel next outcome) :
    Delivers rel (first >>= fun _ => next)
      (outcome.map (Prod.map (events ++ ·) id)) := by
  have whole : Delivers rel (first >>= fun _ => next) (andThen _ fun _ => outcome) :=
    faithful.delivers_bind told fun _ => delivers
  rwa [andThen_ok] at whole

theorem delivers_tell {events : List Event} (calls : ∀ event ∈ events, ∃ call, event = .call call) :
    Delivers rel (observer.tell events) (.ok (events, ())) := by
  refine delivers_change ?_
  induction events with
  | nil =>
      intro st
      exact ⟨rfl, faithful.nothing st⟩
  | cons event rest ih =>
      obtain ⟨⟨call, rfl⟩, further⟩ := List.forall_mem_cons.mp calls
      intro st
      obtain ⟨succeeds, told⟩ := ih further (observer.call st call)
      exact ⟨succeeds, faithful.append (faithful.call st call) told⟩

theorem delivers_call (call : Call) :
    Delivers rel (observer.tell [.call call]) (.ok ([.call call], ())) :=
  faithful.delivers_tell (List.forall_mem_singleton.mpr ⟨call, rfl⟩)

theorem delivers_entering {stack : TemplateStack} (admitted : admits stack) :
    Delivers rel (observer.entering stack) (.ok ([], ())) :=
  delivers_change fun st => ⟨rfl, faithful.enter st stack admitted⟩

theorem delivers_invoke {template : Delivery σ Unit}
    {outcome : Except CompileError (List Event × Unit)} (call : LambdaCall)
    (delivers : Delivers rel template outcome) :
    Delivers rel (observer.invoke call template)
      (.ok ([.lambda call (outcome.map Prod.fst)], ())) := by
  refine delivers_change fun st => faithful.lambda st call ?_
  intro inner
  obtain ⟨same, told⟩ := delivers inner
  refine ⟨?_, told⟩
  rw [Delivery.action, same]
  cases outcome <;> rfl

theorem delivers_foldlM {step : State → α → Delivery σ State} {compile : State → α → Outcome}
    (delivers : ∀ s item, Delivers rel (step s item) (compile s item)) (items : List α)
    (s : State) :
    Delivers rel (items.foldlM step s) (runAll compile s items) := by
  induction items generalizing s with
  | nil => exact faithful.delivers_pure s
  | cons item rest ih =>
      rw [List.foldlM_cons]
      exact faithful.delivers_bind (delivers s item) ih

section

variable {nested? : Option Nested} {composing? : Option (Body → Delivery σ Bool)}
  {nested : Nested} {composing : Body → Delivery σ Bool} {t : LineToken}

def ComposesNested (admits : TemplateStack → Prop)
    (rel : σ → Except CompileError (List Event) → σ → Prop) (body : Body)
    (composing : Body → Delivery σ Bool) (nested : Nested) : Prop :=
  ∀ kind name, body.stack.MayEnter kind name → admits (body.stack.enter kind name) ∧
    ∀ inner, inner.stack = body.stack.enter kind name →
      Delivers rel (composing inner) (nested inner)

theorem delivers_inclusion
    (composes : Option.Rel (ComposesNested admits rel body) composing? nested?)
    (s : State) (kind : FrameKind) (name : String) (position : Position) (indent : String)
    (blocks : GivenBlocks) :
    Delivers rel
      (composeInclusion observer setting composing? body s kind name position indent blocks)
      (includeTemplate setting nested? body s kind name position indent blocks) := by
  cases composes with
  | none => exact faithful.delivers_throw _
  | @some composing nested composes =>
      rw [includeTemplate_admitted]
      unfold composeInclusion
      cases found : admitted setting body kind name position with
      | error problem => exact faithful.delivers_throw problem
      | ok template =>
          obtain ⟨entered, each⟩ := composes kind template.name (mayEnter_of_admitted found)
          have closes (atLineStart : Bool) :
              Delivers rel (do observer.tell [.call .exitPartial]; return { s with atLineStart })
                (.ok ([.call .exitPartial], { s with atLineStart })) :=
            faithful.delivers_told (faithful.delivers_call .exitPartial) (faithful.delivers_pure _)
          have inside := faithful.delivers_bind
            (each (body.enter s kind template indent blocks) rfl) closes
          have whole := faithful.delivers_told (faithful.delivers_entering entered)
            (faithful.delivers_told (faithful.delivers_call (.enterPartial name)) inside)
          rw [ok_bind]
          revert whole
          cases nested (body.enter s kind template indent blocks) <;> exact id

theorem delivers_lambda (composes : Option.Rel (ComposesNested admits rel body) composing? nested?)
    (s : State) (held : LambdaSection) (standalone : Bool) :
    Delivers rel (composeLambda observer setting composing? body s held standalone)
      (callLambda setting nested? body s held standalone) := by
  cases composes with
  | none => exact faithful.delivers_throw _
  | @some composing nested composes =>
      obtain ⟨entered, each⟩ := composes .lambda held.name nofun
      have template : Delivers rel
          (do
            let source ← lambdaTemplate setting (body.stack.enter .lambda held.name) held
            let _ ← composing (body.enterLambda s held source)
            return ())
          ((lambdaOutcome setting nested body s held).map (·, ())) := by
        unfold lambdaOutcome
        cases lambdaTemplate setting (body.stack.enter .lambda held.name) held with
        | error problem => exact faithful.delivers_throw problem
        | ok source =>
            have inside := faithful.delivers_map (each (body.enterLambda s held source) rfl)
              fun _ => ()
            rw [ok_bind]
            revert inside
            cases nested (body.enterLambda s held source) <;> exact id
      have called := faithful.delivers_invoke (lambdaCall body s held standalone) template
      have whole := faithful.delivers_told
        (faithful.delivers_tell (writes_lambdaIndent body s standalone).calls)
        (faithful.delivers_told (faithful.delivers_entering entered)
          (faithful.delivers_told called
            (faithful.delivers_pure (lambdaIndent body s standalone).2)))
      have kept : ((lambdaOutcome setting nested body s held).map (·, ())).map Prod.fst =
          lambdaOutcome setting nested body s held := by
        cases lambdaOutcome setting nested body s held <;> rfl
      rw [kept] at whole
      rw [callLambda_eq]
      exact whole

theorem delivers_token (composes : Option.Rel (ComposesNested admits rel body) composing? nested?)
    (closing standalone : Bool) (s : State) (t : LineToken) :
    Delivers rel (composeToken observer setting composing? body closing standalone s t)
      (readToken setting nested? body closing standalone s t) := by
  rw [readToken_eq]
  unfold composeToken
  split
  · next asks =>
      rw [asks]
      exact faithful.delivers_inclusion composes _ _ _ _ _ _
  · next asks =>
      rw [asks]
      exact faithful.delivers_lambda composes _ _ _
  · next asks =>
      rw [asks]
      cases done : readToken setting none body closing standalone s t with
      | error problem => exact faithful.delivers_throw problem
      | ok result =>
          have whole := faithful.delivers_map
            (faithful.delivers_tell (readToken_effect done).moves.calls) fun _ => result.2
          exact whole

theorem delivers_group (composes : Option.Rel (ComposesNested admits rel body) composing? nested?)
    (s : State) (g : LineGroup) :
    Delivers rel (composeGroup observer setting composing? body s g)
      (readGroup setting nested? body s g) := by
  have step (between : State) (t : LineToken) :
      Delivers rel
        (composeToken observer setting composing? body (closesLambda s.mode g)
          (closesLambda s.mode g && 1 < g.length) between t)
        (readToken setting nested? body (closesLambda s.mode g)
          (closesLambda s.mode g && 1 < g.length) between t) :=
    faithful.delivers_token composes _ _ between t
  have whole := faithful.delivers_map (faithful.delivers_foldlM step g s) endGroup
  have same : readGroup setting nested? body s g =
      (runAll (readToken setting nested? body (closesLambda s.mode g)
        (closesLambda s.mode g && 1 < g.length)) s g).map (Prod.map id endGroup) := by
    unfold readGroup
    dsimp only
    cases runAll _ s g <;> rfl
  rw [same]
  exact whole

theorem delivers_with (composes : Option.Rel (ComposesNested admits rel body) composing? nested?) :
    Delivers rel (composeWith observer setting composing? body)
      (compileWith setting nested? body) := by
  unfold composeWith compileWith
  cases groups body with
  | error problem => exact faithful.delivers_throw problem
  | ok lines =>
      have ending (s : State) : Delivers rel
          (do
            checkClosed body s
            return s.atLineStart : Delivery σ Bool)
          ((checkClosed body s).map fun _ => ([], s.atLineStart)) := by
        cases checkClosed body s with
        | error problem => exact faithful.delivers_throw problem
        | ok => exact faithful.delivers_pure s.atLineStart
      have step (s : State) (g : LineGroup) :
          Delivers rel (composeGroup observer setting composing? body s g)
            (readGroup setting nested? body s g) :=
        faithful.delivers_group composes s g
      have whole := faithful.delivers_bind
        (faithful.delivers_foldlM step lines (.start body)) ending
      have same : andThen (runAll (readGroup setting nested? body) (.start body) lines)
          (fun s => (checkClosed body s).map fun _ => ([], s.atLineStart)) = do
            let (events, s) ← runAll (readGroup setting nested? body) (.start body) lines
            checkClosed body s
            return (events, s.atLineStart) := by
        cases runAll (readGroup setting nested? body) (.start body) lines with
        | error problem => rfl
        | ok result =>
            rw [andThen_ok, ok_bind]
            dsimp only
            cases checkClosed body result.2 <;> simp [Except.map]
      rw [same] at whole
      exact whole

end

end Faithful

def Closed (admits : TemplateStack → Prop) (most : Nat) : Prop :=
  ∀ stack kind name, admits stack → stack.depth ≤ most → stack.MayEnter kind name →
    admits (stack.enter kind name)

theorem Faithful.delivers_upTo (setting : Setting) (faithful : Faithful observer admits rel)
    (closed : Closed admits setting.options.maxIncludeDepth) (deeper : Body → Delivery σ Bool)
    (room : Nat) (body : Body) (admitted : admits body.stack)
    (placed : body.stack.depth + room = setting.options.maxIncludeDepth + 1) :
    Delivers rel (composeUpTo observer setting deeper (room + 1) body)
      (compileBody setting room body) := by
  induction room generalizing body with
  | zero =>
      have deepest : setting.options.maxIncludeDepth < body.stack.depth := by omega
      rw [composeUpTo, if_pos deepest]
      exact faithful.delivers_with .none
  | succ room ih =>
      have allowed : ¬setting.options.maxIncludeDepth < body.stack.depth := by omega
      rw [composeUpTo, if_neg allowed]
      refine faithful.delivers_with (.some ?_)
      intro kind name enters
      have entered := closed body.stack kind name admitted (by omega) enters
      refine ⟨entered, ?_⟩
      intro inner same
      have below : inner.stack.depth = body.stack.depth + 1 := by rw [same]; rfl
      exact ih inner (same ▸ entered) (by omega)

end Compile

/-- Composes a template for an observer, for as many levels as options allow. -/
def composeInto {σ : Type} (observer : Observer σ) (schema : Schema) (library : Library)
    (options : Options) (deeper : Compile.Body → Delivery σ Bool) (template : Template) :
    Delivery σ Bool :=
  Compile.composeUpTo observer ⟨schema, library, options⟩ deeper (options.maxIncludeDepth + 1)
    (.root schema template)

section

variable {σ : Type} {observer : Observer σ} {options : Options} {template : Template}
  {rel : σ → Except CompileError (List Event) → σ → Prop}

theorem composeInto_admits {admits : TemplateStack → Prop}
    (faithful : Compile.Faithful observer admits rel)
    (closed : Compile.Closed admits options.maxIncludeDepth) (root : admits (.root template.name))
    (schema : Schema) (library : Library) (deeper : Compile.Body → Delivery σ Bool) (st : σ) :
    failure? ((composeInto observer schema library options deeper template).on st).1 =
        failure? (compile schema library options template) ∧
      rel st (compile schema library options template)
        ((composeInto observer schema library options deeper template).on st).2 := by
  have placed : (Compile.Body.root schema template).stack.depth + options.maxIncludeDepth =
      options.maxIncludeDepth + 1 := Nat.add_comm 1 _
  obtain ⟨same, told⟩ := faithful.delivers_upTo ⟨schema, library, options⟩ closed deeper
    options.maxIncludeDepth (.root schema template) root placed st
  refine ⟨?_, told⟩
  unfold composeInto compile
  rw [same]
  cases Compile.compileBody ⟨schema, library, options⟩ options.maxIncludeDepth
    (.root schema template) <;> rfl

theorem composeInto_compile
    (faithful : Compile.Faithful observer
      (fun stack => stack.depth ≤ options.maxIncludeDepth + 1) rel)
    (schema : Schema) (library : Library) (deeper : Compile.Body → Delivery σ Bool)
    (template : Template) (st : σ) :
    failure? ((composeInto observer schema library options deeper template).on st).1 =
        failure? (compile schema library options template) ∧
      rel st (compile schema library options template)
        ((composeInto observer schema library options deeper template).on st).2 :=
  composeInto_admits faithful (fun _ _ _ _ allowed _ => Nat.succ_le_succ allowed)
    (Nat.le_add_left 1 _) schema library deeper st

end

end Stencil
