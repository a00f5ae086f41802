import Stencil.Proofs.Compile.Buffering
import Stencil.Proofs.Compile.Included
import Stencil.Proofs.Compile.Placeless
import Stencil.Proofs.Program.Concatenation
import Stencil.Proofs.Template.WellNested

/-!
Opacity of lambda sections. Main statement: two texts between the tags of a section that belongs to
a lambda make no difference to a compile, but that the lambda is called with one or with the other.
-/

namespace Stencil

namespace Token

variable {token : Token} {tokens : List Token} {name : String}

theorem depthAfter?_of_opened (opened : token.opened? = some name) (depth : Nat) :
    token.depthAfter? depth = some (depth + 1) := by
  obtain ⟨kind, position, raw⟩ := token
  cases kind with
  | tag kind name => cases kind <;> first | rfl | cases opened
  | _ => cases opened

theorem depthAfter?_of_closed (closes : token.closed? = some name) (depth : Nat) :
    token.depthAfter? (depth + 1) = some depth := by
  obtain ⟨kind, position, raw⟩ := token
  cases kind with
  | tag kind name => cases kind <;> first | rfl | cases closes
  | _ => cases closes

theorem depthAfter?_of_other (noOpening : token.opened? = none) (noEnd : token.closed? = none)
    (inside : token.isEof = false) (depth : Nat) : token.depthAfter? depth = some depth := by
  obtain ⟨kind, position, raw⟩ := token
  cases kind with
  | tag kind name =>
      cases kind with
      | openSection | openInverted | openParent | openBlock => cases noOpening
      | close => cases noEnd
      | escaped | unescaped | inclusion => rfl
  | eof => cases inside
  | _ => rfl

theorem WellNested.depthAfter? (nested : WellNested tokens)
    (inside : ∀ token ∈ tokens, token.isEof = false) (depth : Nat) :
    tokens.foldlM Token.depthAfter? depth = some depth := by
  induction nested generalizing depth with
  | nil => rfl
  | other noOpening noEnd _ ih =>
      obtain ⟨here, further⟩ := List.forall_mem_cons.mp inside
      rw [List.foldlM_cons, depthAfter?_of_other noOpening noEnd here]
      exact ih further depth
  | enclose opened closes _ _ ihInside ihRest =>
      obtain ⟨-, within⟩ := List.forall_mem_cons.mp inside
      obtain ⟨first, last⟩ := List.forall_mem_append.mp within
      obtain ⟨-, further⟩ := List.forall_mem_cons.mp last
      rw [List.foldlM_cons, depthAfter?_of_opened opened]
      refine Eq.trans List.foldlM_append ?_
      rw [ihInside first, Option.bind_eq_bind, Option.bind_some, List.foldlM_cons,
        depthAfter?_of_closed closes]
      exact ihRest further depth

theorem EndsOnce.unplaced (ends : EndsOnce tokens) : EndsOnce (tokens.map Token.unplaced) := by
  obtain ⟨body, ending, rfl, isEof, inside⟩ := ends
  exact ⟨body.map Token.unplaced, ending.unplaced, by simp, isEof, by simpa using inside⟩

theorem text_unplaced (tokens : List Token) : text (tokens.map Token.unplaced) = text tokens :=
  congrArg String.ofList (Lexeme.chars_unplaced tokens)

end Token

def Template.withSection (front : Template) (name text behind : String) : Template :=
  ⟨front.name, front.source ++ TagKind.openSection.write name ++ text ++ TagKind.close.write name ++
    behind⟩

/-- That a text can stand between the tags of a section: it is on one line, changes no delimiters,
has its tags well nested, and a tag behind it is read as one. -/
def IsInline (text : String) : Prop :=
  ∃ inner, IsContent text inner ∧ Token.WellNested inner ∧ ∀ token ∈ inner, token.isNewline = false

theorem IsInline.exists_tokens {text : String} (isInline : IsInline text) :
    ∃ inner, IsContent text inner ∧ Token.IsBalanced (inner.map Token.unplaced) ∧
      ∀ token ∈ inner.map Token.unplaced, token.endsLine = false := by
  obtain ⟨inner, content, nested, oneLine⟩ := isInline
  have inside : ∀ token ∈ inner, token.isEof = false := by
    obtain ⟨template, ending, read⟩ := content.read
    exact fun token member => (endsOnce_of_tokenize read).isEof_of_mem (by simp) token member
  have kept (depth : Nat) (token : Token) :
      token.unplaced.depthAfter? depth = token.depthAfter? depth := rfl
  refine ⟨inner, content, ?_, ?_⟩
  · rw [Token.IsBalanced, List.foldlM_map]
    simp only [kept]
    exact nested.depthAfter? inside 0
  · simp only [List.forall_mem_map, Token.endsLine, Bool.or_eq_false_iff]
    exact fun token member => ⟨oneLine token member, inside token member⟩

namespace Compile

open LineClassifier Token

variable {setting : Setting} {nested? : Option Nested} {body : Body} {s : State} {t : LineToken}
  {depth : Nat} {name : String} {decl : LambdaDecl} {names : FreshNames}

theorem readToken_closing {token : Token} (inside : token.isEof = false) (standalone : Bool) :
    readToken setting nested? body (closesLambda s.mode (single token)) standalone s
        (.of .normal token) =
      readToken setting nested? body false standalone s (.of .normal token) := by
  cases flag : closesLambda s.mode (single token) with
  | false => rfl
  | true =>
      cases mode : s.mode with
      | normal | parent _ _ =>
          rw [mode] at flag
          cases flag
      | lambda held =>
          have role : (LineToken.of .normal token).role = .normal := by simp [LineToken.of, inside]
          have closes : (LineToken.of .normal token).token.kind = .tag .close held.name := by
            rw [mode, closesLambda, Bool.and_eq_true, single, List.all_cons, role] at flag
            simpa using flag.2
          simp only [readToken, mode, readLambda, closes]

theorem readToken_endGroup (setting : Setting) (nested? : Option Nested) (body : Body) (s : State)
    (written : t.role ≠ .ignore) :
    (readToken setting nested? body false false (endGroup s) t).map (Prod.map id endGroup) =
      (readToken setting nested? body false false s t).map (Prod.map id endGroup) := by
  obtain ⟨scope, names, atLineStart, pendingIndent, openTags, mode⟩ := s
  cases mode with
  | normal | parent _ _ => rfl
  | lambda held =>
      have skipped (opening : Bool) : (opening && decide (t.role = .ignore)) = false := by
        simp [written]
      simp only [readToken, endGroup, readLambda, skipped, Bool.false_eq_true, if_false]
      cases t.token.kind with
      | tag kind name =>
          cases kind with
          | close =>
              dsimp only
              by_cases inner : held.depth ≠ 0
              · rw [if_pos inner, if_pos inner]
                rfl
              · rw [if_neg inner, if_neg inner]
                by_cases other : name ≠ held.name
                · rw [if_pos other, if_pos other]
                  rfl
                · rw [if_neg other, if_neg other]
                  cases nested? <;> rfl
          | _ => rfl
      | _ => rfl

theorem readGroup_single {token : Token} (inside : token.isEof = false) :
    readGroup setting nested? body s (single token) =
      (readToken setting nested? body false false s (.of .normal token)).map
        (Prod.map id endGroup) := by
  have alone : runAll (readToken setting nested? body (closesLambda s.mode (single token)) false) s
      (single token) = readToken setting nested? body false false s (.of .normal token) := by
    rw [← readToken_closing inside]
    exact runAll_concat (show runAll _ s [] = .ok ([], s) from rfl)
  have short : (closesLambda s.mode (single token) && decide (1 < (single token).length)) = false :=
    Bool.and_false _
  rw [readGroup, short, alone]
  cases readToken setting nested? body false false s (.of .normal token) <;> rfl

theorem runAll_pair {first second : Token} (insideFirst : first.isEof = false)
    (insideSecond : second.isEof = false)
    (apart : first.closed? = none ∨ second.closed? = none) (later : List LineGroup) :
    runAll (readGroup setting nested? body) s
        ([.of .normal first, .of .normal second] :: later) =
      runAll (readGroup setting nested? body) s (single first :: single second :: later) := by
  have written : (LineToken.of .normal second).role ≠ .ignore :=
    LineToken.role_ne (by decide) (by decide) second
  have flag : closesLambda s.mode [.of .normal first, .of .normal second] = false := by
    cases mode : s.mode with
    | normal | parent _ _ => rfl
    | lambda held =>
        have normal {token : Token} (inside : token.isEof = false) :
            (LineToken.of .normal token).role = .normal := by simp [LineToken.of, inside]
        have ends {token : Token} (closes : (LineToken.of .normal token).token.kind =
            .tag .close held.name) : token.closed? = some held.name := by
          rw [Token.closed?, show token.kind = _ from closes]
        by_contra flagged
        rw [Bool.not_eq_false, closesLambda] at flagged
        simp only [List.all_cons, normal insideFirst, normal insideSecond, ne_eq, not_true_eq_false,
          decide_false, Bool.false_or, List.all_nil, Bool.and_true, Bool.and_eq_true,
          decide_eq_true_eq] at flagged
        obtain ⟨-, first, second⟩ := flagged
        rcases apart with none | none
        · cases (ends first).symm.trans none
        · cases (ends second).symm.trans none
  have pair : readGroup setting nested? body s [.of .normal first, .of .normal second] =
      runAll (readGroup setting nested? body) s [single first, single second] := by
    rw [readGroup, flag]
    simp only [Bool.false_and, runAll, readGroup_single insideFirst]
    cases readToken setting nested? body false false s (.of .normal first) with
    | error error => rfl
    | ok result =>
        obtain ⟨events, s⟩ := result
        simp only [ok_bind, Except.map, Prod.map, id]
        rw [readGroup_single insideSecond, readToken_endGroup setting nested? body s written]
        cases readToken setting nested? body false false s (.of .normal second) with
        | error error => rfl
        | ok result => simp [Except.map]
  rw [runAll, pair, ← runAll_append]
  rfl

variable {before inner tail : List Token} {opening closer : Token} {lines : List LineGroup}

theorem runAll_enclosed (ends : EndsOnce (before ++ opening :: (inner ++ closer :: tail)))
    (opens : opening.kind = .tag .openSection name) (closes : closer.isStandalone = true)
    (within : ∀ token ∈ inner, token.endsLine = false) :
    runAll (readGroup setting nested? body) s
        (drain true (before ++ opening :: (inner ++ closer :: tail))) =
      runAll (readGroup setting nested? body) s (drain true before ++
        ((opening :: (inner ++ [closer])).map single ++ drain false tail)) := by
  have isTag : opening.isStandalone = true := by rw [Token.isStandalone, opens]; rfl
  have noEnd : opening.closed? = none := by rw [Token.closed?, opens]
  obtain same | ⟨groups, first, second, later, isOpening, inFirst, inSecond, same, apart⟩ :=
    drain_enclosed ends isTag closes within
  · rw [same]
  · have either : first.closed? = none ∨ second.closed? = none := by
      rcases isOpening with rfl | rfl
      · exact .inl noEnd
      · exact .inr noEnd
    rw [same, apart, runAll_append, runAll_append]
    simp only [runAll_pair inFirst inSecond either]

theorem runAll_within (setting : Setting) (nested? : Option Nested) (body : Body) (s : State)
    (held : LambdaSection) (formed : ∀ group ∈ lines, Formed group)
    (next : (lines.flatten.map LineToken.token).foldlM depthAfter? held.depth = some depth)
    (opened : held.opening = false) :
    runAll (readGroup setting nested? body) (s.reading held) lines =
      .ok ([], s.reading (held.add (text (lines.flatten.map LineToken.token)) depth)) := by
  induction lines generalizing held with
  | nil =>
      rw [List.flatten_nil, List.map_nil, LambdaSection.add_nil (Option.some.inj next)]
      rfl
  | cons group lines ih =>
      obtain ⟨here, further⟩ := List.forall_mem_cons.mp formed
      rw [List.flatten_cons, List.map_append, List.foldlM_append] at next
      obtain ⟨middle, first, next⟩ := Option.bind_eq_some_iff.mp next
      have rest := ih (held.add (text (group.map LineToken.token)) middle) further next opened
      rw [runAll, readGroup_keep here first opened]
      simp only [ok_bind, rest, pure_eq_ok, List.nil_append]
      rw [List.flatten_cons, List.map_append, LambdaSection.add_add]

theorem runAll_lambda (normal : s.mode = .normal) (opens : opening.kind = .tag .openSection name)
    (means : s.scope.meaning setting.schema name .openSection s.names = .ok (.lambda decl, names))
    (balanced : IsBalanced inner) (closes : closer.kind = .tag .close name) :
    runAll (readGroup setting nested? body) s ((opening :: (inner ++ [closer])).map single) =
      (callLambda setting nested? body { s with pendingIndent := none, names, mode := .normal }
        ⟨name, opening.position, decl, text inner, 0, false⟩ false).map (Prod.map id endGroup) := by
  let after : State := { s with pendingIndent := none, names }
  let held : LambdaSection := ⟨name, opening.position, decl, "", 0, false⟩
  have inOpening : opening.isEof = false := by rw [Token.isEof, opens]
  have inCloser : closer.isEof = false := by rw [Token.isEof, closes]
  have start :
      readGroup setting nested? body s (single opening) = .ok ([], after.reading held) := by
    rw [readGroup_single inOpening, readToken_lambda normal opens means]
    rfl
  have spelled : (inner.map single).flatten.map LineToken.token = inner := by
    rw [flatten_map_single, map_token_map_of]
  have formed : ∀ group ∈ inner.map single, Formed group := by
    simpa using fun token _ => Formed.single token
  have kept := runAll_within setting nested? body after held formed
    (spelled.symm ▸ balanced) rfl
  have read : held.add (text inner) 0 = ⟨name, opening.position, decl, text inner, 0, false⟩ := by
    rw [LambdaSection.add, show held.body ++ text inner = text inner from String.empty_append]
  rw [spelled, read] at kept
  rw [List.map_cons, List.map_append, List.map_singleton, runAll, start]
  simp only [ok_bind, List.nil_append]
  rw [runAll_concat kept, readGroup_single inCloser, readToken_end closes rfl, endLambda,
    if_neg (not_not_intro rfl)]
  exact bind_pure _

def resume (setting : Setting) (nested? : Option Nested) (body : Body) (events : List Event)
    (lines : List LineGroup) (outcome : Outcome) : Except CompileError (List Event × Bool) := do
  let (more, s) ← outcome
  let (rest, s) ← runAll (readGroup setting nested? body) (endGroup s) lines
  checkClosed body s
  return (events ++ more ++ rest, s.atLineStart)

theorem resume_body (setting : Setting) (nested? : Option Nested) (body : Body) (s : State)
    (held : LambdaSection) (standalone : Bool) (events : List Event) (lines : List LineGroup) :
    (∃ error, ∀ text, resume setting nested? body events lines
      (callLambda setting nested? body s { held with body := text } standalone) = .error error) ∨
    ∃ (before : List Event) (call : LambdaCall) (after : List Event) (last : Bool),
      call.name = held.name ∧ ∀ text, ∃ template, resume setting nested? body events lines
        (callLambda setting nested? body s { held with body := text } standalone) =
          .ok (before ++ .lambda { call with body := text } template :: after, last) := by
  obtain ⟨error, fails⟩ | ⟨leading, call, after, -, named, calls⟩ :=
    callLambda_body setting nested? body s held standalone
  · exact .inl ⟨error, fun text => by rw [fails text]; rfl⟩
  · cases rest : runAll (readGroup setting nested? body) (endGroup after) lines with
    | error error =>
        refine .inl ⟨error, fun text => ?_⟩
        obtain ⟨template, called⟩ := calls text
        simp only [resume, called, ok_bind, rest, error_bind]
    | ok result =>
        obtain ⟨more, last⟩ := result
        cases closed : checkClosed body last with
        | error error =>
            refine .inl ⟨error, fun text => ?_⟩
            obtain ⟨template, called⟩ := calls text
            simp only [resume, called, ok_bind, rest, closed, error_bind]
        | ok =>
            refine .inr ⟨events ++ leading, call, more, last.atLineStart, named, fun text => ?_⟩
            obtain ⟨template, called⟩ := calls text
            refine ⟨template, ?_⟩
            simp only [resume, called, ok_bind, rest, closed, pure_eq_ok]
            simp

variable {events : List Event}

theorem compileGroups_lambda (reached : runAll (readGroup setting nested? body) (.start body)
      (drain true before) = .ok (events, s))
    (normal : s.mode = .normal) (opens : opening.kind = .tag .openSection name)
    (means : s.scope.meaning setting.schema name .openSection s.names = .ok (.lambda decl, names))
    (closes : closer.kind = .tag .close name)
    (ends : EndsOnce (before ++ opening :: (inner ++ closer :: tail))) (balanced : IsBalanced inner)
    (within : ∀ token ∈ inner, token.endsLine = false) :
    compileGroups setting nested? body
        (drain true (before ++ opening :: (inner ++ closer :: tail))) =
      resume setting nested? body events (drain false tail)
        (callLambda setting nested? body
          { s with pendingIndent := none, names, mode := .normal }
          ⟨name, opening.position, decl, text inner, 0, false⟩ false) := by
  have isEnd : closer.isStandalone = true := by rw [Token.isStandalone, closes]; rfl
  rw [compileGroups, resume, runAll_enclosed ends opens isEnd within, runAll_append, reached,
    ok_bind]
  simp only [runAll_append]
  rw [runAll_lambda normal opens means balanced closes]
  cases callLambda setting nested? body { s with pendingIndent := none, names, mode := .normal }
      ⟨name, opening.position, decl, text inner, 0, false⟩ false with
  | error error => rfl
  | ok result =>
      simp only [Except.map, ok_bind, Prod.map, id, bind_assoc, pure_eq_ok, List.append_assoc]

theorem compileGroups_source (body : Body) (source : String) (lines : List LineGroup) :
    compileGroups setting nested? { body with source } lines =
      compileGroups setting nested? body lines := rfl

theorem unplaced_lines (lines : List LineGroup) :
    (lines.map (List.map LineToken.unplaced)).map (List.map LineToken.unplaced) =
      lines.map (List.map LineToken.unplaced) := by
  have once (group : LineGroup) :
      (group.map LineToken.unplaced).map LineToken.unplaced = group.map LineToken.unplaced :=
    List.map_map
  simp only [List.map_map, Function.comp_def, once]

variable {front : Template} {behind : String} (placeless : ∀ nested ∈ nested?, Placeless nested)
  (leads : LeadsToSection front.source name before)

include placeless in
theorem reached_unplaced (reached : runAll (readGroup setting nested? body) (.start body)
      (drain true before) = .ok (events, s)) (normal : s.mode = .normal) :
    ∃ written after, runAll (readGroup setting nested? body) (.start body)
        (drain true (before.map Token.unplaced)) = .ok (written, after) ∧
      after.mode = .normal ∧ after.scope = s.scope ∧ after.names = s.names := by
  have again : Outcome.seen (runAll (readGroup setting nested? body) (.start body)
      (drain true (before.map Token.unplaced))) = Outcome.seen (.ok (events, s)) := by
    rw [← reached]
    exact readGroups_seen placeless rfl rfl (by rw [drain_unplaced, unplaced_lines])
  obtain ⟨-, -, -, ⟨⟩, -⟩ | ⟨written, after, _, _, done, ⟨⟩, -, same⟩ := seen_cases again
  have mode : after.mode.unplaced = s.mode.unplaced :=
    show after.unplaced.mode = s.unplaced.mode from congrArg State.mode same
  refine ⟨written, after, done, ?_,
    show after.unplaced.scope = s.unplaced.scope from congrArg State.scope same,
    show after.unplaced.names = s.unplaced.names from congrArg State.names same⟩
  rw [normal] at mode
  cases known : after.mode with
  | normal => rfl
  | _ =>
      rw [known] at mode
      cases mode

include leads in
theorem compileWith_unread {error : TokenError} (failed : tokenize front.name behind = .error error)
    {text : String} (isInline : IsInline text) :
    seen id (compileWith setting nested? (.root setting.schema
      (front.withSection name text behind))) = .error (.token front.name error.unplaced) := by
  obtain ⟨inner, content, -⟩ := isInline
  have read := tokenize_enclosed leads content front.name front.name behind
  rw [failed] at read
  change unplacedTokens (tokenize front.name (front.withSection name text behind).source) =
    .error error.unplaced at read
  cases found : tokenize front.name (front.withSection name text behind).source with
  | ok tokens =>
      rw [found] at read
      cases read
  | error problem =>
      rw [found] at read
      have unread : groups (.root setting.schema (front.withSection name text behind)) =
          .error (.token front.name problem) := groups_unread found
      rw [compileWith, unread, ← Except.error.inj read]
      rfl

include placeless leads in
theorem compileWith_section
    (reached : runAll (readGroup setting nested? (.root setting.schema front))
      (.start (.root setting.schema front)) (drain true before) = .ok (events, s))
    (normal : s.mode = .normal)
    (means : s.scope.meaning setting.schema name .openSection s.names = .ok (.lambda decl, names))
    (read : tokenize front.name behind = .ok tail) :
    ∃ (written : List Event) (after : State), ∀ text, IsInline text →
      seen id (compileWith setting nested? (.root setting.schema
        (front.withSection name text behind))) =
      seen id (resume setting nested? (.root setting.schema front) written
        (drain false (tail.map Token.unplaced))
        (callLambda setting nested? (.root setting.schema front) after
          ⟨name, .unknown, decl, text, 0, false⟩ false)) := by
  obtain ⟨written, after, reached, normal, scope, sameNames⟩ :=
    reached_unplaced placeless reached normal
  rw [← scope, ← sameNames] at means
  refine ⟨written, { after with pendingIndent := none, names, mode := .normal }, ?_⟩
  intro text isInline
  obtain ⟨inner, content, balanced, within⟩ := isInline.exists_tokens
  have spelled := tokenize_enclosed leads content front.name front.name behind
  rw [read] at spelled
  obtain ⟨tokens, found, same⟩ := map_eq_ok.mp (mapError_eq_ok.mp spelled)
  dsimp only at same
  have ends := (endsOnce_of_tokenize found).unplaced
  rw [same] at ends
  have raw : Token.text (inner.map Token.unplaced) = text := by
    obtain ⟨named, -⟩ := leads.readsFrom
    rw [text_unplaced, Token.text, (content.readsAll named []).1, String.ofList_toList]
  have called := compileGroups_lambda reached normal rfl means rfl ends balanced within
  rw [raw, ← same, drain_unplaced] at called
  have grouped : groups (.root setting.schema (front.withSection name text behind)) =
      .ok (groupsOf tokens) := groups_unreplaced rfl found
  change seen id (groups _ >>= compileGroups setting nested? _) = _
  rw [grouped]
  refine Eq.trans ?_ (congrArg (seen id) called)
  rw [← compileGroups_source (.root setting.schema front)
    (front.withSection name text behind).source]
  refine compileGroups_seen placeless rfl ?_
  rw [groupsOf_eq_drain (endsOnce_of_tokenize found), unplaced_lines]

end Compile

def Sink.noting : Sink (List (Call ⊕ LambdaCall)) :=
  ⟨fun made call => made ++ [.inl call], fun made call _ => (made ++ [.inr call], none)⟩

theorem Sink.feed_noting (made : List (Call ⊕ LambdaCall)) (events : List Event) :
    noting.feed made events = (made ++ events.map Event.seen, none) := by
  induction events generalizing made with
  | nil => exact congrArg (·, none) (List.append_nil made).symm
  | cons event events ih =>
      have noted : noting.feedEvent made event = (made ++ [event.seen], none) := by
        cases event with
        | call call => rfl
        | lambda call outcome => cases outcome <;> rfl
      rw [feed, noted]
      exact (ih _).trans (by rw [List.map_cons, ← List.append_cons])

open Compile LineClassifier Sink

variable {schema : Schema} {library : Library} {options : Options}
variable {front : Template} {name : String}

def OpensLambda (schema : Schema) (library : Library) (options : Options) (front : Template)
    (name : String) : Prop :=
  ∃ before events s decl names, LeadsToSection front.source name before ∧
    runAll (readGroup ⟨schema, library, options⟩
        (nestedAt ⟨schema, library, options⟩ options.maxIncludeDepth) (.root schema front))
      (.start (.root schema front)) (drain true before) = .ok (events, s) ∧
    s.mode = .normal ∧
    s.scope.meaning schema name .openSection s.names = .ok (.lambda decl, names)

/-- What comes of a lambda section is a call that has its text, and nothing else that does. -/
theorem compile_section (opens : OpensLambda schema library options front name) (behind : String) :
    (∃ error, ∀ text, IsInline text →
      seen id (compileBody ⟨schema, library, options⟩ options.maxIncludeDepth
        (.root schema (front.withSection name text behind))) = .error error) ∨
    ∃ (before : List (Call ⊕ LambdaCall)) (call : LambdaCall) (after : List (Call ⊕ LambdaCall))
      (last : Bool), call.name = name ∧ ∀ text, IsInline text →
      seen id (compileBody ⟨schema, library, options⟩ options.maxIncludeDepth
        (.root schema (front.withSection name text behind))) =
          .ok (before ++ .inr { call with body := text } :: after, last) := by
  obtain ⟨before, events, s, decl, names, leads, reached, normal, means⟩ := opens
  rw [compileBody_eq]
  cases read : tokenize front.name behind with
  | error error => exact .inl ⟨_, fun text => compileWith_unread leads read⟩
  | ok tail =>
      have placeless : ∀ nested ∈ nestedAt ⟨schema, library, options⟩ options.maxIncludeDepth,
          Placeless nested := forall_nestedAt (compileBody_placeless _) _
      obtain ⟨written, after, whole⟩ :=
        compileWith_section placeless leads reached normal means read
      obtain ⟨error, fails⟩ | ⟨leading, call, later, last, named, calls⟩ :=
        resume_body ⟨schema, library, options⟩
          (nestedAt ⟨schema, library, options⟩ options.maxIncludeDepth) (.root schema front) after
          ⟨name, .unknown, decl, "", 0, false⟩ false written (drain false (tail.map Token.unplaced))
      · refine .inl ⟨error.unplaced, fun text isInline => (whole text isInline).trans ?_⟩
        exact congrArg (seen id) (fails text)
      · refine .inr ⟨leading.map Event.seen, call, later.map Event.seen, last, named,
          fun text isInline => (whole text isInline).trans ?_⟩
        obtain ⟨template, called⟩ := calls text
        refine (congrArg (seen id) called).trans ?_
        simp [seen, Event.seen, Except.mapError, Except.map]

variable {template : Template}

theorem compileInto_noting {calls : List (Call ⊕ LambdaCall)} {last : Bool}
    (compiled : seen id (compileBody ⟨schema, library, options⟩ options.maxIncludeDepth
      (.root schema template)) = .ok (calls, last)) :
    compileInto noting schema library options template [] = (calls, none) := by
  obtain ⟨⟨events, ended⟩, done, same⟩ := map_eq_ok.mp compiled
  obtain ⟨rfl, rfl⟩ := Prod.mk.inj same
  rw [compileInto, compile, mapError_eq_ok.mp done]
  exact feed_noting [] events

theorem compileInto_noting_error {error : CompileError}
    (failed : seen id (compileBody ⟨schema, library, options⟩ options.maxIncludeDepth
      (.root schema template)) = .error error) :
    ∃ problem, problem.unplaced = error ∧
      compileInto noting schema library options template [] = ([], some problem) := by
  cases compiled : compileBody ⟨schema, library, options⟩ options.maxIncludeDepth
    (.root schema template) with
  | ok result =>
      rw [compiled] at failed
      cases failed
  | error problem =>
      rw [compiled] at failed
      refine ⟨problem, Except.error.inj failed, ?_⟩
      rw [compileInto, compile, compiled]
      rfl

/-- What stands in a lambda section has no bearing on a compile for a sink that asks for no lambda's
template, but that the lambda is called with it. -/
theorem compileInto_section (opens : OpensLambda schema library options front name)
    {text other : String} (isInline : IsInline text) (otherInline : IsInline other)
    (behind : String) :
    (∃ error otherError, error.unplaced = otherError.unplaced ∧
      compileInto noting schema library options (front.withSection name text behind) [] =
        ([], some error) ∧
      compileInto noting schema library options (front.withSection name other behind) [] =
        ([], some otherError)) ∨
    ∃ (before : List (Call ⊕ LambdaCall)) (call : LambdaCall) (after : List (Call ⊕ LambdaCall)),
      call.name = name ∧
      compileInto noting schema library options (front.withSection name text behind) [] =
        (before ++ .inr { call with body := text } :: after, none) ∧
      compileInto noting schema library options (front.withSection name other behind) [] =
        (before ++ .inr { call with body := other } :: after, none) := by
  obtain ⟨error, fails⟩ | ⟨before, call, after, last, named, calls⟩ := compile_section opens behind
  · obtain ⟨problem, same, failed⟩ := compileInto_noting_error (fails text isInline)
    obtain ⟨otherProblem, otherSame, otherFailed⟩ :=
      compileInto_noting_error (fails other otherInline)
    exact .inl ⟨problem, otherProblem, same.trans otherSame.symm, failed, otherFailed⟩
  · exact .inr ⟨before, call, after, named, compileInto_noting (calls text isInline),
      compileInto_noting (calls other otherInline)⟩

theorem compileInto_section_unknown :
    ∃ (schema : Schema) (front : Template),
      OpensLambda schema (.ofCatalog []) .default front "f" ∧
        (front.withSection "f" "{{x}}" "b").source =
          "{{x}} {{#f}}{{x}}{{/f}}b" ∧
        IsInline "{{x}}" ∧
        IsInline "{{#g}}{{>p}}{{/g}}" ∧
        ∃ (before : List (Call ⊕ LambdaCall)) (call : LambdaCall)
          (after : List (Call ⊕ LambdaCall)),
          call.name = "f" ∧
          compileInto noting schema (.ofCatalog []) .default
              (front.withSection "f" "{{x}}" "b") [] =
            (before ++ .inr { call with body := "{{x}}" } :: after, none) ∧
          compileInto noting schema (.ofCatalog []) .default
              (front.withSection "f" "{{#g}}{{>p}}{{/g}}"
                "b") [] =
            (before ++ .inr { call with
              body := "{{#g}}{{>p}}{{/g}}" } :: after,
              none) := by
  let schema := (Schema.ofRoot (.struct "Page")).withStruct "Page" ⟨[("x", .text)], [("f", .raw)]⟩
  let front : Template := ⟨"main", "{{x}} "⟩
  let place (column : Nat) (line : String) : Position := ⟨"main", 1, column, line⟩
  have opens : OpensLambda schema (.ofCatalog []) .default front "f" := by
    let line := "{{x}} {{#f}}"
    let value : Token := ⟨.tag .escaped "x", place 1 line, "{{x}}"⟩
    let space : Token := ⟨.whitespace " ", place 6 line, " "⟩
    let opening : Token := ⟨.tag .openSection "f", place 7 line, "{{#f}}"⟩
    let ending : Token := ⟨.eof, place 13 line, ""⟩
    have leads : LeadsToSection front.source "f" [value, space] :=
      ⟨"main", opening, ending, by decide +kernel, rfl, rfl⟩
    let s : State := { State.start (.root schema front) with atLineStart := false }
    have grouped : drain true [value, space] = [single value, single space] := by decide +kernel
    let written : List Event :=
      [.call (.value (.field (.var "data") "x") .escaped), .call (.literal " ")]
    refine ⟨[value, space], written, s, .raw, s.names, leads, ?_, rfl, by decide +kernel⟩
    rw [grouped]
    rfl
  have isInline : IsInline "{{x}}" := by
    let line := "{{x}}"
    let value : Token := ⟨.tag .escaped "x", place 1 line, "{{x}}"⟩
    let ending : Token := ⟨.eof, place 6 line, ""⟩
    have read : tokenize "main" line = .ok ([value] ++ [ending]) := by decide +kernel
    exact ⟨[value], ⟨⟨"main", ending, read⟩, by simp [value], by decide⟩, .one rfl rfl,
      by simp [value, Token.isNewline]⟩
  have otherInline : IsInline "{{#g}}{{>p}}{{/g}}" := by
    let line := "{{#g}}{{>p}}{{/g}}"
    let opening : Token := ⟨.tag .openSection "g", place 1 line, "{{#g}}"⟩
    let inclusion : Token := ⟨.tag .inclusion "p", place 7 line, "{{>p}}"⟩
    let closing : Token := ⟨.tag .close "g", place 13 line, "{{/g}}"⟩
    let ending : Token := ⟨.eof, place 19 line, ""⟩
    have read : tokenize "main" line = .ok ([opening, inclusion, closing] ++ [ending]) := by
      decide +kernel
    have nested : Token.WellNested (opening :: ([inclusion] ++ closing :: [])) :=
      .enclose rfl rfl (.one rfl rfl) .nil
    exact ⟨_, ⟨⟨"main", ending, read⟩, by simp [opening, inclusion, closing], by decide⟩, nested,
      by simp [opening, inclusion, closing, Token.isNewline]⟩
  have succeeds : (compile schema (.ofCatalog []) .default
      (front.withSection "f" "{{x}}" "b")).isOk = true := by decide +kernel
  refine ⟨schema, front, opens, by decide +kernel, isInline, otherInline, ?_⟩
  obtain ⟨_, _, -, failed, -⟩ | same := compileInto_section opens isInline otherInline "b"
  · obtain ⟨events, compiled⟩ := eq_ok_of_isOk succeeds
    unfold compileInto at failed
    simp only [compiled, feed_noting] at failed
    cases congrArg Prod.snd failed
  · exact same

end Stencil
