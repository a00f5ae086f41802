import Stencil.Proofs.Compile.Alike
import Stencil.Proofs.Template.Calls

/-!
Templates that are one inclusion or one parent call. Main statement: either is compiled like the
template that it brings in, with the tokens of its blocks if it has any.
-/

namespace Stencil

theorem Text.cutAt?_of_notMem {c : Char} {cs : List Char} (missing : c ∉ cs) :
    cutAt? [c] cs = none := by
  induction cs with
  | nil => rfl
  | cons first rest ih =>
      rw [List.mem_cons, not_or] at missing
      obtain ⟨here, further⟩ := missing
      simp [cutAt?, after?, here, ih further]

theorem Library.fetch_of_whole {name : String} (whole : '#' ∉ name.toList) (library : Library)
    (stack : TemplateStack) (position : Position) :
    library.fetch name stack position =
      (library name stack).mapError (.library name · position stack.describe) := by
  have named : Fragment.ofName name = (name, none) := by
    rw [Fragment.ofName, Text.cutAt?_of_notMem whole]
  simp only [fetch, named]
  cases library name stack <;> rfl

namespace Compile

variable {setting otherSetting : Setting} {nested? otherNested? : Option Nested}
  {body otherBody : Body} {s other : State}

theorem checkClosed_alike (body otherBody : Body) (alike : s.Alike other) :
    checkClosed body s = .ok () ∧ checkClosed otherBody other = .ok () ∨
      ∃ error otherError, checkClosed body s = .error error ∧
        checkClosed otherBody other = .error otherError := by
  have open? := alike.openTags
  unfold checkClosed
  rw [alike.normal, alike.otherNormal]
  cases tags : s.openTags with
  | nil =>
      rw [tags, List.map_nil, eq_comm, List.map_eq_nil_iff] at open?
      rw [open?]
      exact .inl ⟨rfl, rfl⟩
  | cons tag outer =>
      rw [tags, List.map_cons, eq_comm, List.map_eq_cons_iff] at open?
      obtain ⟨otherTag, otherOuter, otherTags, -⟩ := open?
      rw [otherTags]
      exact .inr ⟨_, _, rfl, rfl⟩

inductive SameCalls : Except CompileError (List Event × Bool) →
    Except CompileError (List Event × Bool) → Prop where
  | failed {error other : CompileError} : SameCalls (.error error) (.error other)
  | done {events : List Event} (atLineStart : Bool) :
      (∀ event ∈ events, ∃ call, event = .call call) →
      SameCalls (.ok (events, atLineStart)) (.ok (events, atLineStart))

theorem compileWith_alike (sameSchema : setting.schema = otherSetting.schema)
    (noLambdas : setting.schema.lambdas = []) (start : (State.start body).Alike (.start otherBody))
    (sameIndent : body.indent = otherBody.indent) {lines otherLines : List LineGroup}
    (grouped : groups body = .ok lines) (otherGrouped : groups otherBody = .ok otherLines)
    (same : lines.map (List.map LineToken.unplaced) = otherLines.map (List.map LineToken.unplaced))
    (isLocal : ∀ t ∈ lines.flatten, t.token.isLocal = true) :
    SameCalls (compileWith setting nested? body)
      (compileWith otherSetting otherNested? otherBody) := by
  have run : Outcome.Alike (runAll (readGroup setting nested? body) (State.start body) lines)
      (runAll (readGroup otherSetting otherNested? otherBody) (State.start otherBody) otherLines) :=
    readGroups_alike sameSchema sameIndent noLambdas same isLocal start
  unfold compileWith
  rw [grouped, otherGrouped]
  simp only [ok_bind]
  revert run
  generalize runAll (readGroup setting nested? body) (State.start body) lines = first
  generalize runAll (readGroup otherSetting otherNested? otherBody) (State.start otherBody)
    otherLines = second
  rintro (_ | ⟨calls, after⟩)
  · exact .failed
  · obtain ⟨closed, otherClosed⟩ | ⟨error, otherError, unclosed, otherUnclosed⟩ :=
      checkClosed_alike body otherBody after
    · simp only [ok_bind, closed, otherClosed, pure_eq_ok, ← after.atLineStart]
      exact .done _ calls
    · simp only [ok_bind, unclosed, otherUnclosed, error_bind]
      exact .failed

theorem compileWith_tokens (noLambdas : setting.schema.lambdas = []) {tokens : List Token}
    (grouped : groups body = .ok (LineClassifier.groupsOf tokens)) :
    compileWith setting nested? body = do
      let (events, s) ← runAll (readToken setting nested? body false false) (.start body)
        (LineClassifier.groupsOf tokens).flatten
      checkClosed body s
      return (events, s.atLineStart) := by
  rw [compileWith, grouped, ok_bind, runAll_readGroup noLambdas _ rfl]

theorem groups_unreplaced {tokens : List Token} (noBlocks : body.blocks = [])
    (read : tokenize body.stack.top.name body.source = .ok tokens) :
    groups body = .ok (LineClassifier.groupsOf tokens) := by
  have kept : (BlockReplacement.start body.blocks).replaceAll tokens = tokens :=
    BlockReplacement.replaceAll_without noBlocks rfl tokens
  simp only [groups, read, kept]

theorem groups_unread {error : TokenError}
    (failed : tokenize body.stack.top.name body.source = .error error) :
    groups body = .error (.token body.stack.top.name error) := by
  simp only [groups, failed]

theorem readPlain_eof {t : LineToken} (ending : t.token.kind = .eof) :
    readPlain setting nested? body s t = .ok ([], s) := by
  have outside : t.token.isNewline = false := by simp [Token.isNewline, ending]
  unfold readPlain
  rw [ending, outside]
  cases t.role <;> rfl

theorem readToken_inclusion {t : LineToken} {name : String} (normal : s.mode = .normal)
    (role : t.role = .normal) (tag : t.token.kind = .tag .inclusion name) :
    readToken setting nested? body false false s t =
      includeTemplate setting nested? body { s with pendingIndent := none } .inclusion name
        t.token.position (s.pendingIndent.getD "") [] := by
  simp only [readToken, normal, readPlain, role, tag, plainTag, TagKind.isIndented, if_true]

theorem readToken_openParent {t : LineToken} {name : String} (normal : s.mode = .normal)
    (unindented : s.pendingIndent = none) (role : t.role = .normal)
    (tag : t.token.kind = .tag .openParent name) :
    readToken setting nested? body false false s t =
      .ok ([], { s with mode := .parent (ParentCall.start name t.token.position) "" }) := by
  obtain ⟨scope, names, atLineStart, pendingIndent, openTags, mode⟩ := s
  dsimp only at normal unindented
  subst normal unindented
  simp only [readToken, readPlain, role, tag, plainTag, TagKind.isIndented, if_true,
    Option.getD_none]

theorem runAll_collects {call last : ParentCall} {indent : String} {tokens : List LineToken}
    (collects : ParentCall.Collects call (tokens.map LineToken.token) last)
    (mode : s.mode = .parent call indent) :
    runAll (readToken setting nested? body false false) s tokens =
      .ok ([], { s with mode := .parent last indent }) := by
  induction tokens generalizing s call with
  | nil =>
      cases collects
      rw [← mode]
      rfl
  | cons t tokens ih =>
      obtain _ | ⟨taken, further⟩ := collects
      simp only [runAll, readToken, mode, readParent, taken, ok_bind]
      rw [ih further rfl]
      rfl

theorem compileWith_inclusion (setting : Setting) (nested? : Option Nested) (template : Template)
    {tokens : List Token} {name : String}
    (read : tokenize template.name template.source = .ok tokens)
    (same : tokens.map Token.unplaced = [TagKind.inclusion.token name, ⟨.eof, .unknown, ""⟩]) :
    ∃ position, compileWith setting nested? (.root setting.schema template) =
      (includeTemplate setting nested? (.root setting.schema template)
        (.start (.root setting.schema template)) .inclusion name position "" []).map
        fun (events, s) => (events, s.atLineStart) := by
  have spelled : tokens.map Token.unplaced =
      [TagKind.inclusion.token name].map Token.unplaced ++ [⟨.eof, .unknown, ""⟩] := same
  have ends := LineClassifier.endsOnce_of_unplaced spelled (by simp [TagKind.token, Token.isEof])
  have flat := LineClassifier.map_token_groupsOf ends
  have roles := fun t => LineClassifier.role_of_isStandalone ends (t := t)
  have grouped : groups (.root setting.schema template) = .ok (LineClassifier.groupsOf tokens) :=
    groups_unreplaced rfl read
  generalize LineClassifier.groupsOf tokens = lines at flat roles grouped
  subst flat
  rw [List.map_map] at same
  obtain ⟨opening, rest, spelled, opens, following⟩ := List.map_eq_cons_iff.mp same
  obtain ⟨ending, rest, rfl, closes, empty⟩ := List.map_eq_cons_iff.mp following
  rw [List.map_eq_nil_iff] at empty
  subst empty
  have tag : opening.token.kind = .tag .inclusion name := congrArg Token.kind opens
  have eof : ending.token.kind = .eof := congrArg Token.kind closes
  have role : opening.role = .normal := by
    refine roles opening (by simp [spelled]) ?_
    simp [Token.isStandalone, tag, TagKind.isStandalone]
  have run : runAll (readGroup setting nested? (.root setting.schema template))
      (.start (.root setting.schema template)) lines =
      runAll (readToken setting nested? (.root setting.schema template) false false)
        (.start (.root setting.schema template)) [opening, ending] := by
    rw [← spelled]
    refine runAll_readGroup_of (P := fun s => s.mode = .normal) lines ?_ ?_ rfl
    · intro s normal
      rw [normal]
      rfl
    · intro t member s result normal done
      rw [spelled, List.mem_pair] at member
      obtain rfl | rfl := member
      · rw [readToken_inclusion normal role tag] at done
        rw [includeTemplate_state done]
        exact normal
      · rw [readToken, normal] at done
        cases (readPlain_eof eof).symm.trans done
        exact normal
  refine ⟨opening.token.position, ?_⟩
  rw [compileWith, grouped, ok_bind, run]
  have opened : readToken setting nested? (.root setting.schema template) false false
      (.start (.root setting.schema template)) opening =
      includeTemplate setting nested? (.root setting.schema template)
        (.start (.root setting.schema template)) .inclusion name opening.token.position "" [] :=
    readToken_inclusion rfl role tag
  rw [runAll, opened]
  cases done : includeTemplate setting nested? (.root setting.schema template)
    (.start (.root setting.schema template)) .inclusion name opening.token.position "" [] with
  | error problem => rfl
  | ok result =>
      have after := includeTemplate_state done
      have normal : result.2.mode = .normal := by rw [after]; rfl
      have closed : checkClosed (.root setting.schema template) result.2 = .ok () := by
        rw [after]
        rfl
      simp only [ok_bind, runAll, readToken, normal, readPlain_eof eof, pure_eq_ok,
        List.append_nil, closed]
      rfl

def callTokens (name : String) (blocks : List (String × Markup)) : List Token :=
  TagKind.openParent.token name ::
    (blocks.flatMap ParentCall.blockTokens ++ [TagKind.close.token name])

theorem callTokens_eq (name : String) (blocks : List (String × Markup)) :
    callTokens name blocks = TagKind.openParent.token name ::
      ((Markup.ofBlocks blocks).tokens ++ [TagKind.close.token name]) := by
  rw [callTokens, Markup.tokens_ofBlocks]

theorem compileWith_call (nested? : Option Nested) (noLambdas : setting.schema.lambdas = [])
    {tokens : List Token}
    (grouped : groups body = .ok (LineClassifier.groupsOf tokens)) {name : String} {markup : Markup}
    {first last : Token} (isList : markup.IsBlockList)
    (distinct : (markup.blocks.map Prod.fst).Nodup)
    (opens : first.kind = .tag .openParent name) (closes : last.kind = .tag .close name)
    (same : tokens.map Token.unplaced =
      (first :: (markup.tokens ++ [last])).map Token.unplaced ++ [⟨.eof, .unknown, ""⟩]) :
    ∃ position given, given.map GivenBlock.unplaced =
        (givenBlocks markup.blocks).map GivenBlock.unplaced ∧
      compileWith setting nested? body =
        (includeTemplate setting nested? body (.start body) .parent name position ""
          (given :: body.blocks)).map fun (events, s) => (events, s.atLineStart) := by
  have inside : ∀ t ∈ first :: (markup.tokens ++ [last]), t.isEof = false := by
    refine List.forall_mem_cons.mpr ⟨by simp [Token.isEof, opens], ?_⟩
    refine List.forall_mem_append.mpr ⟨?_, by simp [Token.isEof, closes]⟩
    intro t member
    exact (Markup.holds_of_mem member).isEof
  have ends := LineClassifier.endsOnce_of_unplaced same inside
  have flat := LineClassifier.map_token_groupsOf ends
  have roles := fun t => LineClassifier.role_of_isStandalone ends (t := t)
  rw [compileWith_tokens noLambdas grouped]
  generalize (LineClassifier.groupsOf tokens).flatten = line at flat roles ⊢
  subst flat
  rw [List.map_map, List.map_cons, List.cons_append, List.map_append, List.append_assoc] at same
  obtain ⟨opening, rest, rfl, opened, following⟩ := List.map_eq_cons_iff.mp same
  obtain ⟨inner, rest, rfl, between, following⟩ := List.map_eq_append_iff.mp following
  obtain ⟨closing, rest, rfl, closed, following⟩ := List.map_eq_cons_iff.mp following
  obtain ⟨ending, rest, rfl, ended, empty⟩ := List.map_eq_cons_iff.mp following
  rw [List.map_eq_nil_iff] at empty
  subst empty
  have openTag : opening.token.kind = .tag .openParent name :=
    (congrArg Token.kind opened).trans opens
  have closeTag : closing.token.kind = .tag .close name := (congrArg Token.kind closed).trans closes
  have eof : ending.token.kind = .eof := congrArg Token.kind ended
  have role : opening.role = .normal := by
    refine roles opening (by simp) ?_
    simp [Token.isStandalone, openTag, TagKind.isStandalone]
  have collected : ParentCall.Collects (ParentCall.start name opening.token.position) markup.tokens
      { ParentCall.start name opening.token.position with
        blocks := (givenBlocks markup.blocks).reverse ++ [] } :=
    ParentCall.collects_blockList markup isList rfl rfl distinct (by simp [ParentCall.start])
  have unplaced := collected.unplaced
  rw [← between, ← List.map_map] at unplaced
  obtain ⟨call, collects, after⟩ := unplaced.exists_of_unplaced
  have openNames : call.openNames = [name] := congrArg ParentCall.openNames after
  have parent : call.parent = name := congrArg ParentCall.parent after
  have given : call.givenBlocks.map GivenBlock.unplaced =
      (givenBlocks markup.blocks).map GivenBlock.unplaced := by
    have collected : call.blocks.map GivenBlock.unplaced =
        ((givenBlocks markup.blocks).reverse ++ []).map GivenBlock.unplaced :=
      congrArg ParentCall.blocks after
    rw [ParentCall.givenBlocks, List.map_reverse, collected, List.append_nil, List.map_reverse,
      List.reverse_reverse]
  have shut : readToken setting nested? body false false
      { State.start body with mode := .parent call "" } closing =
      includeTemplate setting nested? body (.start body) .parent name call.position ""
        (call.givenBlocks :: body.blocks) := by
    simp only [readToken, readParent,
      ParentCall.push_closing_call (Token.closed?_eq_some_iff.mpr closeTag) openNames]
    rw [← parent]
    rfl
  refine ⟨call.position, call.givenBlocks, given, ?_⟩
  rw [runAll, readToken_openParent rfl rfl role openTag]
  simp only [ok_bind]
  rw [runAll_append, runAll_collects collects rfl]
  simp only [ok_bind]
  rw [runAll, shut]
  cases done : includeTemplate setting nested? body (.start body) .parent name call.position ""
    (call.givenBlocks :: body.blocks) with
  | error problem => rfl
  | ok result =>
      have after := includeTemplate_state done
      have normal : result.2.mode = .normal := by rw [after]; rfl
      have unclosed : checkClosed body result.2 = .ok () := by
        rw [after]
        rfl
      simp only [ok_bind, runAll, readToken, normal, readPlain_eof eof, pure_eq_ok,
        List.append_nil, List.nil_append, unclosed]
      rfl

theorem compileWith_parentCall (setting : Setting) (nested? : Option Nested) (template : Template)
    (noLambdas : setting.schema.lambdas = []) {tokens : List Token} {name : String}
    {blocks : List (String × Markup)} (distinct : (blocks.map Prod.fst).Nodup)
    (read : tokenize template.name template.source = .ok tokens)
    (same : tokens.map Token.unplaced =
      (callTokens name blocks).map Token.unplaced ++ [⟨.eof, .unknown, ""⟩]) :
    ∃ position given, given.map GivenBlock.unplaced =
        (givenBlocks blocks).map GivenBlock.unplaced ∧
      compileWith setting nested? (.root setting.schema template) =
        (includeTemplate setting nested? (.root setting.schema template)
          (.start (.root setting.schema template)) .parent name position "" [given]).map
          fun (events, s) => (events, s.atLineStart) := by
  have distinct' : ((Markup.ofBlocks blocks).blocks.map Prod.fst).Nodup := by
    rw [Markup.blocks_ofBlocks]
    exact distinct
  rw [callTokens_eq] at same
  have grouped : groups (.root setting.schema template) = .ok (LineClassifier.groupsOf tokens) :=
    groups_unreplaced rfl read
  have called := compileWith_call nested? noLambdas grouped (Markup.isBlockList_ofBlocks blocks)
    distinct' rfl rfl same
  rwa [Markup.blocks_ofBlocks] at called

def Body.enter (body : Body) (s : State) (kind : FrameKind) (template : Template) (indent : String)
    (blocks : GivenBlocks) : Body :=
  { stack := body.stack.enter kind template.name
    scope := s.scope
    names := s.names
    indent := body.indent ++ indent
    blocks
    atLineStart := s.atLineStart
    source := template.source }

theorem includeTemplate_found {nested : Nested} {kind : FrameKind} {name : String}
    {position : Position} {indent : String} {blocks : GivenBlocks} {template : Template}
    (found : setting.library.fetch name body.stack position = .ok template)
    (acyclic : kind = .parent ∨ body.stack.contains template.name = false) :
    includeTemplate setting (some nested) body s kind name position indent blocks =
      (nested (body.enter s kind template indent blocks)).map fun (events, atLineStart) =>
        (.call (.enterPartial name) :: events ++ [.call .exitPartial], { s with atLineStart }) := by
  have allowed : (decide (kind ≠ .parent) && body.stack.contains template.name) = false := by
    obtain rfl | outside := acyclic
    · rfl
    · rw [outside, Bool.and_false]
  simp only [includeTemplate, Body.enter, found, ok_bind, allowed, Bool.false_eq_true, if_false]
  cases nested _ <;> rfl

theorem includeTemplate_ok {kind : FrameKind} {name : String} {position : Position}
    {indent : String} {blocks : GivenBlocks} {result : List Event × State}
    (done : includeTemplate setting nested? body s kind name position indent blocks = .ok result) :
    ∃ nested template inner, nested? = some nested ∧
      setting.library.fetch name body.stack position = .ok template ∧
      (kind = .parent ∨ body.stack.contains template.name = false) ∧
      nested (body.enter s kind template indent blocks) = .ok inner ∧
      result.1 = .call (.enterPartial name) :: inner.1 ++ [.call .exitPartial] := by
  unfold includeTemplate at done
  cases nested? with
  | none => cases done
  | some nested =>
      obtain ⟨template, found, done⟩ := bind_eq_ok.mp done
      split at done
      · cases done
      · next allowed =>
          obtain ⟨inner, compiled, done⟩ := bind_eq_ok.mp done
          cases done
          refine ⟨nested, template, inner, rfl, found, ?_, compiled, rfl⟩
          simpa [or_iff_not_imp_left] using allowed

def nestedAt (setting : Setting) : Nat → Option Nested
  | 0 => none
  | room + 1 => some (compileBody setting room)

theorem compileBody_eq (setting : Setting) (room : Nat) :
    compileBody setting room = compileWith setting (nestedAt setting room) := by
  cases room <;> rfl

end Compile

theorem Program.compile_eq_bind {schema : Schema} {library : Library} {options : Options}
    {template : Template} {outcome : Compile.Outcome} (ends : Compile.State → Bool)
    (compiled : Compile.compileWith ⟨schema, library, options⟩
      (Compile.nestedAt ⟨schema, library, options⟩ options.maxIncludeDepth)
      (.root schema template) = outcome.map fun result => (result.1, ends result.2)) :
    Program.compile schema library options template =
      outcome >>= fun result => Program.ofEvents template.name result.1 := by
  unfold Program.compile Stencil.compile
  rw [Compile.compileBody_eq, compiled]
  cases outcome <;> rfl

end Stencil
