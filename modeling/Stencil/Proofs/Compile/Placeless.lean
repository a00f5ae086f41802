import Stencil.Proofs.Compile.LambdaSections
import Stencil.Proofs.Token.Enclosed

/-!
Compiling without places. Main statement: where tokens stand has no bearing on a compile, but for
the places of its errors and for the templates of lambdas, which are compiled apart.
-/

namespace Stencil

def CompileError.unplaced : CompileError → CompileError
  | .nesting error _ openNames templates => .nesting error .unknown openNames templates
  | .notFound name _ scopes templates => .notFound name .unknown scopes templates
  | .shape message _ templates => .shape message .unknown templates
  | .library name error _ templates => .library name error .unknown templates
  | .recursiveInclude name _ templates => .recursiveInclude name .unknown templates
  | .includeDepth name depth _ templates => .includeDepth name depth .unknown templates
  | .token template error => .token template error.unplaced

theorem Library.fetch_unplaced (library : Library) (name : String) (stack : TemplateStack)
    (position other : Position) :
    (library.fetch name stack position).mapError CompileError.unplaced =
      (library.fetch name stack other).mapError CompileError.unplaced := by
  unfold fetch
  generalize Fragment.ofName name = target
  obtain ⟨path, fragment?⟩ := target
  dsimp only
  cases library path stack with
  | error problem => rfl
  | ok template =>
      cases fragment? with
      | none => rfl
      | some fragment =>
          cases found : Fragment.find? template.name template.source fragment with
          | error problem =>
              simp only [Except.mapError, ok_bind, found]
              rfl
          | ok source? =>
              simp only [Except.mapError, ok_bind, found]
              cases source? <;> rfl

namespace Compile

def Body.unplaced (body : Body) : Body :=
  { body with blocks := body.blocks.map (List.map GivenBlock.unplaced) }

def LambdaSection.unplaced (held : LambdaSection) : LambdaSection :=
  { held with position := .unknown }

def Mode.unplaced : Mode → Mode
  | .normal => .normal
  | .parent call indent => .parent call.unplaced indent
  | .lambda held => .lambda held.unplaced

def State.unplaced (s : State) : State :=
  { s with openTags := s.openTags.map OpenTag.unplaced, mode := s.mode.unplaced }

def seen {α β : Type} (change : α → β) (result : Except CompileError (List Event × α)) :
    Except CompileError (List (Call ⊕ LambdaCall) × β) :=
  (result.mapError CompileError.unplaced).map fun (events, after) =>
    (events.map Event.seen, change after)

abbrev Outcome.seen (outcome : Outcome) :
    Except CompileError (List (Call ⊕ LambdaCall) × State) :=
  Compile.seen State.unplaced outcome

def Placeless (nested : Nested) : Prop :=
  ∀ body other : Body, body.unplaced = other.unplaced →
    seen id (nested body) = seen id (nested other)

variable {setting : Setting} {nested? : Option Nested} {body : Body} {s : State} {t : LineToken}
  {α β γ δ : Type} {change : α → β}

theorem seen_ok {events others : List Event} {after later : α}
    (sameEvents : events.map Event.seen = others.map Event.seen)
    (sameState : change after = change later) :
    seen change (.ok (events, after)) = seen change (.ok (others, later)) := by
  simp only [seen, Except.mapError, Except.map, sameEvents, sameState]

theorem seen_error {error other : CompileError} (same : error.unplaced = other.unplaced) :
    seen change (.error error) = seen change (.error other) := by
  simp only [seen, Except.mapError, Except.map, same]

theorem seen_ite {c d : Prop} [Decidable c] [Decidable d]
    {first second other further : Except CompileError (List Event × α)} (same : c ↔ d)
    (holds : seen change first = seen change other)
    (fails : seen change second = seen change further) :
    seen change (if c then first else second) = seen change (if d then other else further) := by
  by_cases here : c
  · rwa [if_pos here, if_pos (same.mp here)]
  · rwa [if_neg here, if_neg (mt same.mpr here)]

theorem seen_cases {first second : Except CompileError (List Event × α)}
    (same : seen change first = seen change second) :
    (∃ error other, first = .error error ∧ second = .error other ∧
      error.unplaced = other.unplaced) ∨
    ∃ events after others later, first = .ok (events, after) ∧ second = .ok (others, later) ∧
      events.map Event.seen = others.map Event.seen ∧ change after = change later := by
  cases first with
  | error error =>
      cases second with
      | error other => exact .inl ⟨error, other, rfl, rfl, Except.error.inj same⟩
      | ok result => cases same
  | ok result =>
      cases second with
      | error other => cases same
      | ok other =>
          obtain ⟨events, after⟩ := Prod.mk.inj (Except.ok.inj same)
          exact .inr ⟨_, _, _, _, rfl, rfl, events, after⟩

theorem mapError_cases {first second : Except CompileError γ}
    (same : first.mapError CompileError.unplaced = second.mapError CompileError.unplaced) :
    (∃ error other, first = .error error ∧ second = .error other ∧
      error.unplaced = other.unplaced) ∨
    ∃ value, first = .ok value ∧ second = .ok value := by
  cases first with
  | error error =>
      cases second with
      | error other => exact .inl ⟨error, other, rfl, rfl, Except.error.inj same⟩
      | ok value => cases same
  | ok value =>
      cases second with
      | error other => cases same
      | ok other => exact .inr ⟨value, rfl, congrArg Except.ok (Except.ok.inj same).symm⟩

theorem seen_bind {otherChange : γ → δ} {first second : Except CompileError (List Event × α)}
    {next further : List Event × α → Except CompileError (List Event × γ)}
    (same : seen change first = seen change second)
    (later : ∀ events after others last, events.map Event.seen = others.map Event.seen →
      change after = change last →
      seen otherChange (next (events, after)) = seen otherChange (further (others, last))) :
    seen otherChange (first >>= next) = seen otherChange (second >>= further) := by
  obtain ⟨error, other, rfl, rfl, unplaced⟩ | ⟨events, after, others, last, rfl, rfl, sameEvents,
    sameAfter⟩ := seen_cases same
  · exact seen_error unplaced
  · exact later events after others last sameEvents sameAfter

theorem ParentCall.unplaced_unplaced (call : ParentCall) :
    call.unplaced.unplaced = call.unplaced := by
  simp only [ParentCall.unplaced, List.map_map, Function.comp_def, GivenBlock.unplaced]
  rfl

theorem State.unplaced_unplaced (s : State) : s.unplaced.unplaced = s.unplaced := by
  obtain ⟨scope, names, atLineStart, pendingIndent, openTags, mode⟩ := s
  cases mode with
  | parent call indent =>
      simp only [State.unplaced, Mode.unplaced, ParentCall.unplaced_unplaced, List.map_map]
      rfl
  | _ =>
      simp only [State.unplaced, Mode.unplaced, List.map_map]
      rfl

theorem Body.unplaced_unplaced (body : Body) : body.unplaced.unplaced = body.unplaced := by
  simp only [Body.unplaced, List.map_map, Function.comp_def, GivenBlock.unplaced]
  rfl

theorem seen_unplaced {events others : List Event} (s : State)
    (same : events.map Event.seen = others.map Event.seen) :
    Outcome.seen (.ok (events, s.unplaced)) = Outcome.seen (.ok (others, s)) :=
  seen_ok same s.unplaced_unplaced

theorem openNames_unplaced (s : State) : s.unplaced.openNames = s.openNames := by
  obtain ⟨scope, names, atLineStart, pendingIndent, openTags, mode⟩ := s
  cases mode <;> simp only [State.openNames, State.unplaced, Mode.unplaced, List.map_map] <;> rfl

theorem nestingError_unplaced (body : Body) (s : State) (error : NestingError)
    (position : Position) :
    (nestingError body.unplaced s.unplaced error .unknown).unplaced =
      (nestingError body s error position).unplaced := by
  rw [nestingError, openNames_unplaced]
  rfl

theorem meaning_unplaced (setting : Setting) (body : Body) (s : State) (name : String)
    (purpose : NameUse) (position : Position) :
    (meaning setting body.unplaced s.unplaced name purpose .unknown).mapError
        CompileError.unplaced =
      (meaning setting body s name purpose position).mapError CompileError.unplaced := by
  change ((s.scope.meaning setting.schema name purpose s.names).mapError _).mapError _ =
    ((s.scope.meaning setting.schema name purpose s.names).mapError _).mapError _
  rcases s.scope.meaning setting.schema name purpose s.names with (_ | _) | _
  all_goals rfl

theorem meaning_bind_unplaced (name : String) (purpose : NameUse) (position : Position)
    {next further : Meaning × FreshNames → Outcome}
    (later : ∀ found names,
      Outcome.seen (next (found, names)) = Outcome.seen (further (found, names))) :
    Outcome.seen (meaning setting body.unplaced s.unplaced name purpose .unknown >>= next) =
      Outcome.seen (meaning setting body s name purpose position >>= further) := by
  obtain ⟨error, found, failed, there, same⟩ | ⟨⟨found, names⟩, done, there⟩ :=
    mapError_cases (meaning_unplaced setting body s name purpose position)
  · rw [failed, there]
    exact seen_error same
  · rw [done, there]
    exact later found names

theorem variableTag_unplaced (name : String) (purpose : NameUse) (escaping : Escaping)
    (position : Position) :
    Outcome.seen (variableTag setting body.unplaced s.unplaced name purpose escaping .unknown) =
      Outcome.seen (variableTag setting body s name purpose escaping position) := by
  refine meaning_bind_unplaced name purpose position fun found names => ?_
  cases found with
  | value found => exact seen_unplaced (indentLine body { s with names }).2 rfl
  | _ => exact seen_unplaced { s with names } rfl

theorem sectionTag_unplaced (name : String) (position : Position) :
    Outcome.seen (sectionTag setting body.unplaced s.unplaced name .unknown) =
      Outcome.seen (sectionTag setting body s name position) := by
  refine meaning_bind_unplaced name .openSection position fun found names => ?_
  cases found with
  | openSection guards scope =>
      exact seen_unplaced
        (openTag { s with names } .openSection name position guards.length scope) rfl
  | lambda decl =>
      exact seen_unplaced
        { s with names, mode := .lambda ⟨name, position, decl, "", 0, true⟩ } rfl
  | _ => exact seen_unplaced { s with names } rfl

theorem invertedTag_unplaced (name : String) (position : Position) :
    Outcome.seen (invertedTag setting body.unplaced s.unplaced name .unknown) =
      Outcome.seen (invertedTag setting body s name position) := by
  refine meaning_bind_unplaced name .openInverted position fun found names => ?_
  cases found with
  | openInverted guard scope =>
      exact seen_unplaced (openTag { s with names } .openInverted name position 1 scope) rfl
  | _ => exact seen_unplaced { s with names } rfl

theorem closeTag_unplaced (name : String) (position : Position) :
    Outcome.seen (closeTag body.unplaced s.unplaced name .unknown) =
      Outcome.seen (closeTag body s name position) := by
  obtain ⟨scope, names, atLineStart, pendingIndent, openTags, mode⟩ := s
  unfold closeTag
  cases openTags with
  | nil => exact seen_error (nestingError_unplaced body _ _ position)
  | cons tag outer =>
      simp only [State.unplaced, List.map_cons, OpenTag.unplaced]
      split
      · exact seen_error (nestingError_unplaced body
          ⟨scope, names, atLineStart, pendingIndent, tag :: outer, mode⟩ _ position)
      · exact seen_unplaced ⟨tag.scope, tag.names, atLineStart, pendingIndent, outer, mode⟩ rfl

variable (placeless : ∀ nested ∈ nested?, Placeless nested)

include placeless in
theorem includeTemplate_unplaced (kind : FrameKind) (name : String) (position : Position)
    (indent : String) (blocks : GivenBlocks) :
    Outcome.seen (includeTemplate setting nested? body.unplaced s.unplaced kind name .unknown indent
        (blocks.map (List.map GivenBlock.unplaced))) =
      Outcome.seen (includeTemplate setting nested? body s kind name position indent blocks) := by
  unfold includeTemplate
  cases nested? with
  | none => rfl
  | some nested =>
      obtain ⟨error, other, failed, there, same⟩ | ⟨template, found, there⟩ :=
        mapError_cases (setting.library.fetch_unplaced name body.stack .unknown position)
      · have failed : setting.library.fetch name body.unplaced.stack .unknown = .error error :=
          failed
        simp only [failed, there, error_bind]
        exact seen_error same
      · have found : setting.library.fetch name body.unplaced.stack .unknown = .ok template := found
        simp only [found, there, ok_bind]
        by_cases within : (kind ≠ .parent && body.stack.contains template.name) = true
        · have still : (kind ≠ .parent && body.unplaced.stack.contains template.name) =
            true := within
          rw [if_pos within, if_pos still]
          rfl
        · have still : ¬(kind ≠ .parent && body.unplaced.stack.contains template.name) =
            true := within
          rw [if_neg within, if_neg still]
          let included : Body :=
            { stack := body.stack.enter kind template.name
              scope := s.scope
              names := s.names
              indent := body.indent ++ indent
              blocks
              atLineStart := s.atLineStart
              source := template.source }
          refine seen_bind (placeless nested rfl included.unplaced included
            included.unplaced_unplaced) fun events after others last same ends => ?_
          obtain rfl : after = last := ends
          refine seen_unplaced { s with atLineStart := after } ?_
          rw [List.map_append, List.map_append, List.map_cons, List.map_cons, same]
          rfl

theorem callLambda_unplaced (held : LambdaSection) (standalone : Bool) :
    Outcome.seen (callLambda setting nested? body.unplaced s.unplaced held.unplaced standalone) =
      Outcome.seen (callLambda setting nested? body s held standalone) := by
  unfold callLambda
  cases nested? with
  | none => rfl
  | some nested =>
      have starts : s.unplaced.atLineStart = s.atLineStart := rfl
      dsimp only
      rw [starts]
      by_cases owed : (standalone && s.atLineStart) = true
      · rw [if_pos owed, if_pos owed, if_pos owed, if_pos owed]
        exact seen_unplaced s rfl
      · rw [if_neg owed, if_neg owed, if_neg owed, if_neg owed]
        refine seen_unplaced (indentLine body s).2 ?_
        rw [List.map_append, List.map_append]
        rfl

include placeless in
theorem plainTag_unplaced (kind : TagKind) (name : String) (position : Position) :
    Outcome.seen (plainTag setting nested? body.unplaced s.unplaced kind name .unknown) =
      Outcome.seen (plainTag setting nested? body s kind name position) := by
  let s' : State := { s with pendingIndent := none }
  cases kind with
  | escaped | unescaped => exact variableTag_unplaced (s := s') _ _ _ _
  | openSection => exact sectionTag_unplaced (s := s') _ _
  | openInverted => exact invertedTag_unplaced (s := s') _ _
  | close => exact closeTag_unplaced (s := s') _ _
  | inclusion => exact includeTemplate_unplaced (s := s') placeless _ _ _ _ []
  | openParent =>
      exact seen_unplaced { s with
        pendingIndent := none
        mode := .parent (.start name position) (s.pendingIndent.getD "") } rfl
  | openBlock => exact seen_unplaced (openTag s' .openBlock name position 0 s.scope) rfl

include placeless in
theorem readPlain_unplaced (t : LineToken) :
    Outcome.seen (readPlain setting nested? body.unplaced s.unplaced t.unplaced) =
      Outcome.seen (readPlain setting nested? body s t) := by
  obtain ⟨⟨kind, position, raw⟩, role⟩ := t
  cases role with
  | ignore =>
      cases kind with
      | newline ending => exact seen_unplaced { s with atLineStart := true } rfl
      | _ => exact seen_unplaced s rfl
  | indent =>
      cases kind with
      | whitespace text => exact seen_unplaced { s with pendingIndent := some text } rfl
      | _ => exact seen_unplaced s rfl
  | eof => exact seen_unplaced s rfl
  | normal =>
      cases kind with
      | text text | whitespace text => exact seen_unplaced (writeText body s text).2 rfl
      | special mark => exact seen_unplaced (writeText body s mark.text).2 rfl
      | newline ending => exact seen_unplaced { s with atLineStart := true } rfl
      | comment _ | delimiters _ _ | eof => exact seen_unplaced s rfl
      | tag kind name => exact plainTag_unplaced placeless kind name position

include placeless in
theorem readParent_unplaced (call : ParentCall) (indent : String) (token : Token) :
    Outcome.seen (readParent setting nested? body.unplaced s.unplaced call.unplaced indent
        token.unplaced) =
      Outcome.seen (readParent setting nested? body s call indent token) := by
  unfold readParent
  rw [ParentCall.push_unplaced]
  rcases call.push token with problem | ⟨next, _ | _⟩
  · exact seen_error (nestingError_unplaced body s problem token.position)
  · exact seen_unplaced { s with mode := .parent next indent } rfl
  · have given : next.unplaced.givenBlocks = next.givenBlocks.map GivenBlock.unplaced :=
      List.map_reverse.symm
    refine Eq.trans ?_ (includeTemplate_unplaced (s := { s with mode := .normal }) placeless .parent
      next.parent next.position indent (next.givenBlocks :: body.blocks))
    rw [List.map_cons, ← given]
    rfl

theorem readLambda_unplaced (held : LambdaSection) (t : LineToken) (closing standalone : Bool) :
    Outcome.seen (readLambda setting nested? body.unplaced s.unplaced held.unplaced t.unplaced
        closing standalone) =
      Outcome.seen (readLambda setting nested? body s held t closing standalone) := by
  have kept (text : String) (depth : Nat) :
      Outcome.seen (.ok ([], { s.unplaced with
          mode := .lambda { held.unplaced with body := text, depth } })) =
        Outcome.seen (.ok ([], { s with mode := .lambda { held with body := text, depth } })) :=
    seen_unplaced { s with mode := .lambda { held with body := text, depth } } rfl
  have silent : Outcome.seen (.ok ([], s.unplaced)) = Outcome.seen (.ok ([], s)) :=
    seen_unplaced s rfl
  have between (depth : Nat) (raw : String) :
      Outcome.seen (if closing then .ok ([], s.unplaced) else .ok ([], { s.unplaced with
          mode := .lambda { held.unplaced with body := held.body ++ raw, depth } })) =
        Outcome.seen (if closing then .ok ([], s) else .ok ([], { s with
          mode := .lambda { held with body := held.body ++ raw, depth } })) :=
    seen_ite .rfl silent (kept _ _)
  obtain ⟨⟨kind, position, raw⟩, role⟩ := t
  refine seen_ite .rfl silent ?_
  cases kind with
  | tag kind name =>
      cases kind with
      | close =>
          refine seen_ite .rfl (kept _ _) (seen_ite .rfl ?_ ?_)
          · exact seen_error (nestingError_unplaced body s _ position)
          · exact callLambda_unplaced (s := { s with mode := .normal }) held standalone
      | openSection | openInverted | openParent | openBlock => exact kept _ _
      | escaped | unescaped | inclusion => exact between _ _
  | eof => exact seen_error (nestingError_unplaced body s _ position)
  | _ => exact between _ _

include placeless in
theorem readToken_unplaced (t : LineToken) (closing standalone : Bool) :
    Outcome.seen
        (readToken setting nested? body.unplaced closing standalone s.unplaced t.unplaced) =
      Outcome.seen (readToken setting nested? body closing standalone s t) := by
  obtain ⟨scope, names, atLineStart, pendingIndent, openTags, mode⟩ := s
  cases mode with
  | normal => exact readPlain_unplaced placeless t
  | parent call indent => exact readParent_unplaced placeless call indent t.token
  | lambda held => exact readLambda_unplaced held t closing standalone

theorem runAll_seen {ι : Type} {step otherStep : State → ι → Outcome} {items others : List ι}
    (each : List.Forall₂ (fun item otherItem => ∀ s other : State, s.unplaced = other.unplaced →
      Outcome.seen (step s item) = Outcome.seen (otherStep other otherItem)) items others)
    {s other : State} (same : s.unplaced = other.unplaced) :
    Outcome.seen (runAll step s items) = Outcome.seen (runAll otherStep other others) := by
  induction each generalizing s other with
  | nil => exact seen_ok rfl same
  | cons here _ ih =>
      refine seen_bind (here s other same) fun events after others last first between => ?_
      refine seen_bind (ih between) fun more ended later final second ending => ?_
      exact seen_ok (by rw [List.map_append, List.map_append, first, second]) ending

theorem closesLambda_unplaced (mode : Mode) (group : LineGroup) :
    closesLambda mode.unplaced (group.map LineToken.unplaced) = closesLambda mode group := by
  cases mode with
  | normal | parent _ _ => rfl
  | lambda held =>
      simp only [Mode.unplaced, closesLambda, List.all_map]
      rfl

theorem endGroup_unplaced (s : State) : (endGroup s).unplaced = endGroup s.unplaced := by
  obtain ⟨scope, names, atLineStart, pendingIndent, openTags, mode⟩ := s
  cases mode <;> rfl

variable {other : Body} {otherState : State} {lines otherLines : List LineGroup}
  (sameBody : body.unplaced = other.unplaced) (sameState : s.unplaced = otherState.unplaced)

include placeless sameBody sameState in
theorem readToken_seen {t otherToken : LineToken} (same : t.unplaced = otherToken.unplaced)
    (closing standalone : Bool) :
    Outcome.seen (readToken setting nested? body closing standalone s t) =
      Outcome.seen (readToken setting nested? other closing standalone otherState otherToken) := by
  rw [← readToken_unplaced placeless, sameBody, sameState, same, readToken_unplaced placeless]

include placeless sameBody sameState in
theorem readGroup_seen {group otherGroup : LineGroup}
    (same : group.map LineToken.unplaced = otherGroup.map LineToken.unplaced) :
    Outcome.seen (readGroup setting nested? body s group) =
      Outcome.seen (readGroup setting nested? other otherState otherGroup) := by
  have length : group.length = otherGroup.length := by simpa using congrArg List.length same
  have mode : s.mode.unplaced = otherState.mode.unplaced := congrArg State.mode sameState
  have closing : closesLambda s.mode group = closesLambda otherState.mode otherGroup := by
    rw [← closesLambda_unplaced, mode, same, closesLambda_unplaced]
  rw [← List.forall₂_eq_eq_eq, List.forall₂_map_left_iff, List.forall₂_map_right_iff] at same
  unfold readGroup
  rw [closing, length]
  refine seen_bind (runAll_seen (same.imp fun t otherToken same s other sameState =>
    readToken_seen placeless sameBody sameState same _ _) sameState)
    fun events after others last sameEvents ending => ?_
  refine seen_ok sameEvents ?_
  rw [endGroup_unplaced, endGroup_unplaced, show after.unplaced = last.unplaced from ending]

include placeless sameBody sameState in
theorem readGroups_seen
    (same : lines.map (List.map LineToken.unplaced) =
      otherLines.map (List.map LineToken.unplaced)) :
    Outcome.seen (runAll (readGroup setting nested? body) s lines) =
      Outcome.seen (runAll (readGroup setting nested? other) otherState otherLines) := by
  rw [← List.forall₂_eq_eq_eq, List.forall₂_map_left_iff, List.forall₂_map_right_iff] at same
  exact runAll_seen (same.imp fun group otherGroup same s other sameState =>
    readGroup_seen placeless sameBody sameState same) sameState

theorem checkClosed_unplaced (body : Body) (s : State) :
    (checkClosed body.unplaced s.unplaced).mapError CompileError.unplaced =
      (checkClosed body s).mapError CompileError.unplaced := by
  have error (s : State) (problem : NestingError) (position : Position) :
      (Except.error (nestingError body.unplaced s.unplaced problem .unknown) :
          Except CompileError Unit).mapError CompileError.unplaced =
        (Except.error (nestingError body s problem position)).mapError CompileError.unplaced :=
    congrArg Except.error (nestingError_unplaced body s problem position)
  obtain ⟨scope, names, atLineStart, pendingIndent, openTags, mode⟩ := s
  cases mode with
  | lambda held => exact error ⟨_, _, _, _, _, .lambda held⟩ _ _
  | parent call indent => exact error ⟨_, _, _, _, _, .parent call indent⟩ _ _
  | normal =>
      cases openTags with
      | nil => rfl
      | cons tag outer => exact error ⟨_, _, _, _, tag :: outer, .normal⟩ _ _

def compileGroups (setting : Setting) (nested? : Option Nested) (body : Body)
    (lines : List LineGroup) : Except CompileError (List Event × Bool) := do
  let (events, s) ← runAll (readGroup setting nested? body) (State.start body) lines
  checkClosed body s
  return (events, s.atLineStart)

include placeless sameBody in
theorem compileGroups_seen
    (same : lines.map (List.map LineToken.unplaced) =
      otherLines.map (List.map LineToken.unplaced)) :
    seen id (compileGroups setting nested? body lines) =
      seen id (compileGroups setting nested? other otherLines) := by
  have start : (State.start body).unplaced = (State.start other).unplaced := by
    change State.start body.unplaced = State.start other.unplaced
    rw [sameBody]
  refine seen_bind (readGroups_seen placeless sameBody start same)
    fun events after others last sameEvents ending => ?_
  have closed : (checkClosed body after).mapError CompileError.unplaced =
      (checkClosed other last).mapError CompileError.unplaced := by
    rw [← checkClosed_unplaced, sameBody, show after.unplaced = last.unplaced from ending,
      checkClosed_unplaced]
  have atLineStart : after.atLineStart = last.atLineStart :=
    show after.unplaced.atLineStart = last.unplaced.atLineStart from
      congrArg State.atLineStart ending
  obtain ⟨error, other, failed, there, unplaced⟩ | ⟨⟨⟩, done, there⟩ := mapError_cases closed
  · simp only [failed, there]
    exact seen_error unplaced
  · simp only [done, there, atLineStart]
    exact seen_ok sameEvents rfl

include sameBody in
theorem groups_seen :
    (∃ error, groups body = .error error ∧ groups other = .error error) ∨
    ∃ lines otherLines, groups body = .ok lines ∧ groups other = .ok otherLines ∧
      lines.map (List.map LineToken.unplaced) = otherLines.map (List.map LineToken.unplaced) := by
  have source : body.source = other.source :=
    show body.unplaced.source = other.unplaced.source from congrArg Body.source sameBody
  have stack : body.stack = other.stack :=
    show body.unplaced.stack = other.unplaced.stack from congrArg Body.stack sameBody
  have blocks : body.blocks.map (List.map GivenBlock.unplaced) =
      other.blocks.map (List.map GivenBlock.unplaced) := congrArg Body.blocks sameBody
  unfold groups
  rw [source, stack]
  cases tokenize other.stack.top.name other.source with
  | error error => exact .inl ⟨_, rfl, rfl⟩
  | ok tokens =>
      refine .inr ⟨_, _, rfl, rfl, ?_⟩
      rw [← LineClassifier.groupsOf_unplaced, ← LineClassifier.groupsOf_unplaced,
        ← BlockReplacement.replaceAll_unplaced, ← BlockReplacement.replaceAll_unplaced]
      simp only [BlockReplacement.unplaced, BlockReplacement.start, blocks]

theorem compileWith_placeless (placeless : ∀ nested ∈ nested?, Placeless nested) :
    Placeless (compileWith setting nested?) := by
  intro body other same
  change seen id (groups body >>= compileGroups setting nested? body) =
    seen id (groups other >>= compileGroups setting nested? other)
  obtain ⟨error, failed, there⟩ | ⟨lines, otherLines, grouped, there, sameLines⟩ := groups_seen same
  · rw [failed, there]
    rfl
  · rw [grouped, there]
    exact compileGroups_seen placeless same sameLines

theorem compileBody_placeless (setting : Setting) (room : Nat) :
    Placeless (compileBody setting room) := by
  induction room with
  | zero => exact compileWith_placeless fun nested none => by cases none
  | succ room ih =>
      refine compileWith_placeless fun nested given => ?_
      cases given
      exact ih

end Compile

end Stencil
