import Stencil.Proofs.Compile.Buffering
import Stencil.Proofs.Compile.Surroundings

/-!
Where a failure comes from. Main statement: what a compile fails with, itself or through a lambda's
template that a sink asks for, is what one of the bodies fails with that it has come to.
-/

namespace Stencil

def CompileError.isLoading : CompileError → Bool
  | library _ _ _ _ | recursiveInclude _ _ _ | includeDepth _ _ _ _ | token _ _ => true
  | nesting _ _ _ _ | notFound _ _ _ _ | shape _ _ _ => false

theorem Library.isLoading_of_fetch {library : Library} {name : String} {stack : TemplateStack}
    {position : Position} {error : CompileError}
    (failed : library.fetch name stack position = .error error) : error.isLoading = true := by
  unfold fetch at failed
  dsimp only at failed
  rcases bind_eq_error.mp failed with failed | ⟨template, -, failed⟩
  · cases outcome : library (Fragment.ofName name).1 stack <;> rw [outcome] at failed <;>
      cases failed
    rfl
  · split at failed
    · cases failed
    · next fragment _ =>
        rcases bind_eq_error.mp failed with failed | ⟨found, -, failed⟩
        · cases outcome : Fragment.find? template.name template.source fragment <;>
            rw [outcome] at failed <;> cases failed
          rfl
        · split at failed <;> cases failed
          rfl

inductive FailsWith (error : CompileError) : Except CompileError (List Event) → Prop where
  | itself : FailsWith error (.error error)
  | lambda {events : List Event} {call : LambdaCall} {template : Except CompileError (List Event)} :
      .lambda call template ∈ events → FailsWith error template → FailsWith error (.ok events)

namespace Sink

variable {σ : Type} {sink : Sink σ}

/-- That a sink fails with what it is told by the template of a lambda, and with nothing else. -/
def IsSincere (sink : Sink σ) : Prop :=
  ∀ st call template error, (sink.lambda st call template).2 = some error →
    ∃ inner, (template inner).2 = some error

def asking : Sink Unit := ⟨fun _ _ => (), fun _ _ template => template ()⟩

theorem isSincere_asking : asking.IsSincere := fun _ _ _ _ failed => ⟨(), failed⟩

mutual

theorem IsSincere.feedEvent (sincere : sink.IsSincere) {st : σ} {error : CompileError} :
    (event : Event) → (sink.feedEvent st event).2 = some error → FailsWith error (.ok [event])
  | .call call, failed => by
      cases failed
  | .lambda call (.error problem), failed => by
      obtain ⟨inner, same⟩ := sincere st call _ error failed
      cases same
      exact .lambda (List.mem_singleton_self _) .itself
  | .lambda call (.ok body), failed => by
      obtain ⟨inner, same⟩ := sincere st call _ error failed
      exact .lambda (List.mem_singleton_self _) (IsSincere.feed sincere body same)

theorem IsSincere.feed (sincere : sink.IsSincere) {st : σ} {error : CompileError} :
    (events : List Event) → (sink.feed st events).2 = some error → FailsWith error (.ok events)
  | [], failed => by
      cases failed
  | event :: rest, failed => by
      rw [Sink.feed] at failed
      cases fed : sink.feedEvent st event with
      | mk next failure =>
          rw [fed] at failed
          cases failure with
          | none =>
              obtain _ | ⟨member, deeper⟩ := IsSincere.feed sincere rest failed
              exact .lambda (List.mem_cons_of_mem _ member) deeper
          | some problem =>
              obtain _ | ⟨member, deeper⟩ :=
                IsSincere.feedEvent sincere event ((congrArg Prod.snd fed).trans failed)
              exact .lambda (List.mem_cons.mpr (.inl (List.mem_singleton.mp member))) deeper

end

theorem IsSincere.fails (sincere : sink.IsSincere) {schema : Schema} {library : Library}
    {options : Options} {template : Template} {st : σ} {error : CompileError}
    (failed : (compileInto sink schema library options template st).2 = some error) :
    FailsWith error (compile schema library options template) := by
  unfold compileInto at failed
  split at failed
  · next problem compiled =>
      cases failed
      rw [compiled]
      exact .itself
  · next events compiled =>
      rw [compiled]
      exact sincere.feed events failed

end Sink

theorem Token.Gives.wellNested_of_mem {tokens : List Token} {blocks : List GivenBlock}
    (gives : Token.Gives tokens blocks) {block : GivenBlock} (member : block ∈ blocks) :
    Token.WellNested block.tokens := by
  induction gives with
  | nil => cases member
  | other _ _ _ ih => exact ih member
  | block _ _ _ nested _ ih =>
      rcases List.mem_cons.mp member with rfl | later
      · exact nested
      · exact ih later
  | construct _ _ _ _ _ ih => exact ih member

theorem ParentCall.gives_of_closed {parent : String} {position : Position} {tokens : List Token}
    {call last : ParentCall} {token : Token}
    (collects : Collects (start parent position) tokens call)
    (closed : call.push token = .ok (last, true)) : Token.Gives tokens call.givenBlocks := by
  obtain ⟨opens, blocks, gives, distinct, within, rfl⟩ := collects_start_iff.mp collects
  obtain ⟨further, more, gives', distinct', inside⟩ | ⟨rfl, -⟩ | ⟨error, fault⟩ :=
    givesSoFar_next gives distinct parent token
  · cases (push_behind gives within distinct gives' distinct' inside).symm.trans closed
  · rw [behind_givenBlocks]
    obtain ⟨gives⟩ := gives
    exact gives
  · cases (fault.push position).symm.trans closed

namespace Compile

variable {setting : Setting} {nested? : Option Nested} {body inner : Body} {error : CompileError}

/-- How a template is entered from another one: what a tag asks for, the frame that the template
gets, and the tags that are left open behind the one that asks. -/
structure Entry where
  request : Request
  frame : Frame
  around : List Token

namespace Point

def opens (p : Point setting nested? body) : List Token :=
  Token.stillOpen (p.passed.map LineToken.token)

def opensBehind (p : Point setting nested? body) : List Token :=
  Token.stillOpen ((p.passed ++ [p.token]).map LineToken.token)

/-- That a token brings in a template, which is compiled as another body. -/
inductive Enters (p : Point setting nested? body) : Entry → Body → Prop where
  | inclusion {kind : FrameKind} {name : String} {position : Position} {indent : String}
      {blocks : GivenBlocks} {answered : State} {template : Template} :
      request? body p.standalone p.state p.token =
        some (.inclusion kind name position indent blocks, answered) →
      setting.library.fetch name body.stack position = .ok template →
      kind = .parent ∨ body.stack.contains template.name = false →
      Enters p ⟨.inclusion kind name position indent blocks, ⟨kind, template.name⟩, p.opensBehind⟩
        (body.enter answered kind template indent blocks)
  | lambda {held : LambdaSection} {standalone : Bool} {answered : State} {source : String} :
      request? body p.standalone p.state p.token = some (.lambda held standalone, answered) →
      lambdaTemplate setting (body.stack.enter .lambda held.name) held = .ok source →
      Enters p ⟨.lambda held standalone, ⟨.lambda, held.name⟩, p.opensBehind⟩
        (body.enterLambda answered held source)

inductive Refuses (p : Point setting nested? body) : CompileError → Prop where
  | itself {error : CompileError} : request? body p.standalone p.state p.token = none →
      p.outcome = .error error → Refuses p error
  | room {name : String} {position : Position} : nested? = none →
      Refuses p (depthError setting body name position)
  | inclusion {kind : FrameKind} {name : String} {position : Position} {indent : String}
      {blocks : GivenBlocks} {answered : State} {error : CompileError} :
      request? body p.standalone p.state p.token =
        some (.inclusion kind name position indent blocks, answered) →
      admitted setting body kind name position = .error error → Refuses p error
  | lambda {held : LambdaSection} {standalone : Bool} {answered : State} {error : CompileError} :
      request? body p.standalone p.state p.token = some (.lambda held standalone, answered) →
      lambdaTemplate setting (body.stack.enter .lambda held.name) held = .error error →
      Refuses p error

end Point

inductive FailsHere (setting : Setting) (nested? : Option Nested) (body : Body) :
    CompileError → Prop where
  | unread {error : CompileError} : groups body = .error error →
      FailsHere setting nested? body error
  | refused {error : CompileError} (p : Point setting nested? body) : p.Refuses error →
      FailsHere setting nested? body error
  | unclosed {lines : List LineGroup} {events : List Event} {last : State} {error : CompileError} :
      groups body = .ok lines →
      runAll (readGroup setting nested? body) (.start body) lines = .ok (events, last) →
      checkClosed body last = .error error → FailsHere setting nested? body error

/-- That the compile of one body comes to another one, which is so many entries further in. -/
inductive Reaches (setting : Setting) (most : Nat) (origin : Body) :
    List Entry → Nat → Body → Prop where
  | origin : Reaches setting most origin [] most origin
  | enter {path : List Entry} {room : Nat} {body inner : Body} {entry : Entry}
      {p : Point setting (nestedAt setting (room + 1)) body} :
      Reaches setting most origin path (room + 1) body → p.Enters entry inner →
      Reaches setting most origin (entry :: path) room inner

theorem isLoading_of_admitted {kind : FrameKind} {name : String} {position : Position}
    (failed : admitted setting body kind name position = .error error) :
    error.isLoading = true := by
  rcases bind_eq_error.mp failed with failed | ⟨template, -, failed⟩
  · exact Library.isLoading_of_fetch failed
  · split at failed <;> cases failed
    rfl

theorem isLoading_of_lambdaTemplate {stack : TemplateStack} {held : LambdaSection}
    (failed : lambdaTemplate setting stack held = .error error) : error.isLoading = true := by
  unfold lambdaTemplate at failed
  split at failed
  · cases failed
  · exact Library.isLoading_of_fetch (map_eq_error.mp failed)
  · cases failed

/-- How a token fails that brings in no template: there is no room for what it asks for, its name
means nothing there, it is an end tag that ends nothing, or what is kept for a parent call or a
lambda cannot go on with it. -/
inductive FailsAlone (setting : Setting) (body : Body) (s : State) (t : LineToken) :
    CompileError → Prop where
  | room {name : String} {position : Position} :
      FailsAlone setting body s t (.includeDepth name setting.options.maxIncludeDepth position
        body.stack.describe)
  | name {kind : TagKind} {name : String} {purpose : NameUse} {error : CompileError} :
      s.mode = .normal → t.token.kind = .tag kind name →
      meaning setting body s name purpose t.token.position = .error error →
      FailsAlone setting body s t error
  | close {name : String} {problem : NestingError} :
      problem = .unexpectedClose name ∨ (∃ expected, problem = .mismatchedClose expected name) →
      FailsAlone setting body s t
        (.nesting problem t.token.position s.openNames body.stack.describe)
  | parent {call : ParentCall} {indent : String} {problem : NestingError} :
      s.mode = .parent call indent → call.push t.token = .error problem →
      FailsAlone setting body s t
        (.nesting problem t.token.position s.openNames body.stack.describe)
  | lambda {held : LambdaSection} : s.mode = .lambda held → t.token.kind = .eof →
      FailsAlone setting body s t
        (.nesting (.unclosed held.name) t.token.position s.openNames body.stack.describe)

section

variable {s : State} {t : LineToken}

theorem failsAlone_plainTag {kind : TagKind} {name : String} (normal : s.mode = .normal)
    (tag : t.token.kind = .tag kind name)
    (failed : plainTag setting none body s kind name t.token.position = .error error) :
    FailsAlone setting body s t error := by
  unfold plainTag at failed
  cases kind with
  | escaped | unescaped | openSection | openInverted =>
      rcases bind_eq_error.mp failed with failed | ⟨⟨found, names⟩, -, done⟩
      · exact .name normal tag failed
      · cases found <;> cases done
  | close =>
      dsimp only [closeTag] at failed
      split at failed
      · cases failed
        exact .close (.inl rfl)
      · split at failed
        · cases failed
          exact .close (.inr ⟨_, rfl⟩)
        · cases failed
  | inclusion =>
      cases failed
      exact .room
  | openParent | openBlock => cases failed

theorem failsAlone_of_readToken {closing standalone : Bool}
    (failed : readToken setting none body closing standalone s t = .error error) :
    FailsAlone setting body s t error := by
  unfold readToken at failed
  split at failed
  · next normal =>
      unfold readPlain at failed
      split at failed
      all_goals try cases failed
      split at failed
      all_goals try cases failed
      next kind name tag => exact failsAlone_plainTag normal tag failed
  · next call indent mode =>
      unfold readParent at failed
      split at failed
      · next problem refused =>
          cases failed
          exact .parent mode refused
      · cases failed
      · cases failed
        exact .room
  · next held mode =>
      unfold readLambda at failed
      dsimp only [callLambda] at failed
      repeat' split at failed
      all_goals cases failed
      · exact .close (.inr ⟨_, rfl⟩)
      · exact .room
      · next ending => exact .lambda mode ending

end

theorem FailsHere.of_own (here : FailsHere setting nested? body error)
    (own : error.isLoading = false) :
    (∃ p : Point setting nested? body, p.outcome = .error error ∧
      FailsAlone setting body p.state p.token error) ∨
    ∃ lines events last, groups body = .ok lines ∧
      runAll (readGroup setting nested? body) (.start body) lines = .ok (events, last) ∧
      checkClosed body last = .error error := by
  cases here with
  | unread failed =>
      unfold groups at failed
      split at failed
      · cases failed
        cases own
      · cases failed
  | refused p refused =>
      cases refused with
      | itself asks failed =>
          have alone := failed
          rw [Point.outcome, readToken_eq, asks] at alone
          exact .inl ⟨p, failed, failsAlone_of_readToken alone⟩
      | room _ => cases own
      | inclusion _ failed => cases own.symm.trans (isLoading_of_admitted failed)
      | lambda _ failed => cases own.symm.trans (isLoading_of_lambdaTemplate failed)
  | unclosed grouped run failed => exact .inr ⟨_, _, _, grouped, run, failed⟩

theorem fetch_of_admitted {kind : FrameKind} {name : String} {position : Position}
    {template : Template} (found : admitted setting body kind name position = .ok template) :
    setting.library.fetch name body.stack position = .ok template ∧
      (kind = .parent ∨ body.stack.contains template.name = false) := by
  obtain ⟨other, fetched, found⟩ := bind_eq_ok.mp found
  split at found
  · cases found
  · next allowed =>
      cases found
      refine ⟨fetched, ?_⟩
      simpa [or_iff_not_imp_left] using allowed

def Point.FailsFor {room : Nat} (p : Point setting (nestedAt setting room) body)
    (error : CompileError) : Prop :=
  p.Refuses error ∨ ∃ below entry inner, room = below + 1 ∧ p.Enters entry inner ∧
    FailsWith error ((compileBody setting below inner).map Prod.fst)

section

variable {room : Nat} {p : Point setting (nestedAt setting room) body} {answered : State}

theorem Point.failsFor_inclusion {kind : FrameKind} {name : String} {position : Position}
    {indent : String} {blocks : GivenBlocks}
    (asks : request? body p.standalone p.state p.token =
      some (.inclusion kind name position indent blocks, answered))
    (failed : FailsWith error ((includeTemplate setting (nestedAt setting room) body answered kind
      name position indent blocks).map Prod.fst)) : p.FailsFor error := by
  obtain _ | below := room
  · obtain _ | _ := failed
    exact .inl (.room rfl)
  · rw [nestedAt, includeTemplate_admitted] at failed
    cases found : admitted setting body kind name position with
    | error problem =>
        rw [found] at failed
        obtain _ | _ := failed
        exact .inl (.inclusion asks found)
    | ok template =>
        obtain ⟨fetched, acyclic⟩ := fetch_of_admitted found
        refine .inr ⟨below, _, _, rfl, .inclusion asks fetched acyclic, ?_⟩
        rw [found, ok_bind] at failed
        cases compiled : compileBody setting below
            (body.enter answered kind template indent blocks) with
        | error problem =>
            rw [compiled] at failed
            obtain _ | _ := failed
            exact .itself
        | ok result =>
            rw [compiled] at failed
            obtain _ | ⟨member, deeper⟩ := failed
            have inside := List.mem_of_ne_of_mem (by simp) member
            rcases List.mem_append.mp inside with within | last
            · exact .lambda within deeper
            · cases List.mem_singleton.mp last

theorem Point.failsFor_lambda {held : LambdaSection} {standalone : Bool}
    (asks : request? body p.standalone p.state p.token = some (.lambda held standalone, answered))
    (failed : FailsWith error ((callLambda setting (nestedAt setting room) body answered held
      standalone).map Prod.fst)) : p.FailsFor error := by
  obtain _ | below := room
  · obtain _ | _ := failed
    exact .inl (.room rfl)
  · rw [nestedAt, callLambda_eq] at failed
    obtain _ | ⟨member, deeper⟩ := failed
    rcases List.mem_append.mp member with written | called
    · obtain ⟨call, same, -⟩ := writes_lambdaIndent body answered standalone _ written
      cases same
    · cases List.mem_singleton.mp called
      unfold lambdaOutcome at deeper
      cases found : lambdaTemplate setting (body.stack.enter .lambda held.name) held with
      | error problem =>
          rw [found] at deeper
          obtain _ | _ := deeper
          exact .inl (.lambda asks found)
      | ok source =>
          rw [found, ok_bind] at deeper
          refine .inr ⟨below, _, _, rfl, .lambda asks found, ?_⟩
          cases compiled : compileBody setting below (body.enterLambda answered held source) with
          | error problem =>
              rw [compiled] at deeper
              obtain _ | _ := deeper
              exact .itself
          | ok result =>
              rw [compiled] at deeper
              exact deeper

theorem Point.failsFor (p : Point setting (nestedAt setting room) body)
    (failed : FailsWith error (p.outcome.map Prod.fst)) : p.FailsFor error := by
  have read := failed
  unfold outcome at read
  rw [readToken_eq] at read
  cases asks : request? body p.standalone p.state p.token with
  | none =>
      rw [asks] at read
      cases outcome : readToken setting none body p.closing p.standalone p.state p.token with
      | error problem =>
          rw [outcome] at read
          obtain _ | _ := read
          refine .inl (.itself asks ?_)
          rw [Point.outcome, readToken_eq, asks]
          exact outcome
      | ok result =>
          rw [outcome] at read
          obtain _ | ⟨member, -⟩ := read
          obtain ⟨call, same, -⟩ := (readToken_effect outcome).moves.plain _ member
          cases same
  | some asked =>
      obtain ⟨request, answered⟩ := asked
      rw [asks] at read
      cases request with
      | inclusion kind name position indent blocks => exact Point.failsFor_inclusion asks read
      | lambda held standalone => exact Point.failsFor_lambda asks read

end

theorem failsHere_or {room : Nat}
    (failed : FailsWith error ((compileBody setting room body).map Prod.fst)) :
    FailsHere setting (nestedAt setting room) body error ∨
      ∃ p : Point setting (nestedAt setting room) body, p.FailsFor error := by
  rw [compileBody_eq, compileWith] at failed
  cases grouped : groups body with
  | error problem =>
      rw [grouped] at failed
      obtain _ | _ := failed
      exact .inl (.unread grouped)
  | ok lines =>
      rw [grouped, ok_bind] at failed
      cases run : runAll (readGroup setting (nestedAt setting room) body) (.start body) lines with
      | error problem =>
          rw [run] at failed
          obtain _ | _ := failed
          obtain ⟨p, outcome⟩ := exists_point_of_error grouped run
          refine .inr ⟨p, p.failsFor ?_⟩
          rw [outcome]
          exact .itself
      | ok result =>
          obtain ⟨events, last⟩ := result
          rw [run, ok_bind] at failed
          dsimp only at failed
          cases ends : checkClosed body last with
          | error problem =>
              rw [ends] at failed
              obtain _ | _ := failed
              exact .inl (.unclosed grouped run ends)
          | ok _ =>
              rw [ends] at failed
              obtain _ | ⟨member, deeper⟩ := failed
              obtain ⟨p, more, next, outcome, inside⟩ := exists_point_of_mem grouped run member
              refine .inr ⟨p, p.failsFor ?_⟩
              rw [outcome]
              exact .lambda inside deeper

theorem Reaches.failsHere {most room : Nat} {origin : Body} {path : List Entry}
    (reaches : Reaches setting most origin path room body)
    (failed : FailsWith error ((compileBody setting room body).map Prod.fst)) :
    ∃ path room body, Reaches setting most origin path room body ∧
      FailsHere setting (nestedAt setting room) body error := by
  induction room generalizing path body with
  | zero =>
      rcases failsHere_or failed with here | ⟨p, refused | ⟨below, _, _, none, -⟩⟩
      · exact ⟨path, 0, body, reaches, here⟩
      · exact ⟨path, 0, body, reaches, .refused p refused⟩
      · cases none
  | succ room ih =>
      rcases failsHere_or failed with here
        | ⟨p, refused | ⟨below, entry, inner, same, enters, deeper⟩⟩
      · exact ⟨path, room + 1, body, reaches, here⟩
      · exact ⟨path, room + 1, body, reaches, .refused p refused⟩
      · cases same
        exact ih (.enter reaches enters) deeper

/-- What a compile leaves a sincere sink with is what one of the bodies that it comes to
fails with. -/
theorem failsHere_of_compileInto {σ : Type} {sink : Sink σ} (sincere : sink.IsSincere)
    {schema : Schema} {library : Library} {options : Options} {template : Template} {st : σ}
    (failed : (compileInto sink schema library options template st).2 = some error) :
    ∃ path room body,
      Reaches ⟨schema, library, options⟩ options.maxIncludeDepth (.root schema template) path room
        body ∧
      FailsHere ⟨schema, library, options⟩ (nestedAt ⟨schema, library, options⟩ room) body error :=
  Reaches.failsHere .origin (sincere.fails failed)

theorem Point.given (collected : body.blocks.AreCollected) (p : Point setting nested? body)
    {kind : FrameKind} {name : String} {position : Position} {indent : String}
    {blocks : GivenBlocks}
    {answered : State}
    (asks : request? body p.standalone p.state p.token =
      some (.inclusion kind name position indent blocks, answered)) :
    blocks = [] ∨ ∃ parent place tokens call token last,
      ParentCall.Collects (.start parent place) tokens call ∧ call.push token = .ok (last, true) ∧
      blocks = call.givenBlocks :: body.blocks := by
  obtain ⟨stack, -, keeps⟩ := p.leaves collected
  unfold request? at asks
  cases keeps with
  | normal normal _ =>
      rw [normal] at asks
      dsimp only at asks
      split at asks <;> cases asks
      exact .inl rfl
  | parent mode _ _ _ _ _ _ collects =>
      rw [mode] at asks
      dsimp only at asks
      split at asks
      · next last taken =>
          cases asks
          obtain ⟨rfl, -⟩ := ParentCall.push_end taken
          exact .inr ⟨_, _, _, _, _, _, collects, taken, rfl⟩
      · cases asks
  | lambda mode _ _ _ _ _ _ =>
      rw [mode] at asks
      dsimp only at asks
      repeat' split at asks
      all_goals cases asks

section

variable {most room : Nat} {origin : Body} {path : List Entry}

theorem Reaches.areCollected (reaches : Reaches setting most origin path room body)
    (collected : origin.blocks.AreCollected) : body.blocks.AreCollected := by
  induction reaches with
  | origin => exact collected
  | @enter path room body inner entry p _ enters ih =>
      cases enters with
      | inclusion asks _ _ =>
          obtain rfl | ⟨parent, place, tokens, call, token, last, collects, -, rfl⟩ :=
            p.given ih asks
          · exact List.forall_mem_nil _
          · exact List.forall_mem_cons.mpr ⟨⟨parent, place, tokens, call, collects, rfl⟩, ih⟩
      | lambda _ _ => exact List.forall_mem_nil _

theorem Reaches.areNested (reaches : Reaches setting most origin path room body)
    (collected : origin.blocks.AreCollected) (nested : origin.blocks.AreNested) :
    body.blocks.AreNested := by
  induction reaches with
  | origin => exact nested
  | @enter path room body inner entry p before enters ih =>
      cases enters with
      | inclusion asks _ _ =>
          obtain rfl | ⟨parent, place, tokens, call, token, last, collects, taken, rfl⟩ :=
            p.given (before.areCollected collected) asks
          · exact List.forall_mem_nil _
          · obtain ⟨rfl, -⟩ := ParentCall.push_end taken
            intro block member
            rcases List.mem_append.mp member with here | outer
            · exact (ParentCall.gives_of_closed collects taken).wellNested_of_mem here
            · exact ih block outer
      | lambda _ _ => exact List.forall_mem_nil _

theorem Reaches.frames (reaches : Reaches setting most origin path room body) :
    body.stack.frames = path.map Entry.frame ++ origin.stack.frames := by
  induction reaches with
  | origin => rfl
  | enter _ enters ih =>
      cases enters with
      | inclusion _ _ _ | lambda _ _ => exact congrArg (List.cons _) ih

end

end Compile

end Stencil
