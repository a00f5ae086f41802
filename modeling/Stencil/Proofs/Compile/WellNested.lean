import Stencil.Proofs.Compile.Untagged
import Stencil.Proofs.Scope.Dynamic
import Stencil.Proofs.Template.WellNested

/-!
Well nested templates without a schema. What carries the proof is that a run keeps the open
constructs of a stack of opening tags. Main statement: a template whose tags have simple names and
bring in no other template is compiled if its tags are well nested, and fails at the first fault if
they are not.
-/

namespace Stencil

def Token.IsSimple (token : Token) : Prop :=
  ∀ kind name, token.tag? = some (kind, name) →
    kind ≠ .inclusion ∧ kind ≠ .openParent ∧ name ≠ "" ∧ Scope.IsSimple name

def NestingFault.toCompileError (templates : String) (fault : NestingFault) : CompileError :=
  .nesting fault.error fault.position (fault.opens.map Token.mark) templates

theorem filled_of_tag {template source : String} {tokens : List Token} {token : Token}
    {kind : TagKind} {name : String} (read : tokenize template source = .ok tokens)
    (member : token ∈ tokens) (tag : token.tag? = some (kind, name)) : name ≠ "" := by
  obtain ⟨d, rest, written⟩ := exists_isWritten read member
  generalize token.raw.toList = raw at written
  rw [Token.kind_of_tag? tag] at written
  cases written with
  | tag padded _ _ => exact padded.1
  | triple _ padded _ => exact padded.1

namespace Compile

open Token

variable {setting : Setting} {nested? : Option Nested} {body : Body} {s next : State}
  {t : LineToken} {opens : List Token} {fault : NestingFault} {name : String}

structure OpenTag.Of (tag : OpenTag) (token : Token) : Prop where
  kind : token.kind = .tag tag.kind tag.name
  isOpening : tag.kind.isOpening = true
  position : token.position = tag.position
  scope : tag.scope.Grown

/-- That the open constructs of a state are those of some opening tags, innermost first, and that
nothing is known of the values in scope. -/
structure KeepsOpen (s : State) (opens : List Token) : Prop where
  normal : s.mode = .normal
  scope : s.scope.Grown
  openTags : List.Forall₂ OpenTag.Of s.openTags opens

def Agrees (templates : String) (outcome : Except NestingFault (List Token)) (run : Outcome) :
    Prop :=
  match outcome with
  | .ok opens => ∃ events next, run = .ok (events, next) ∧ KeepsOpen next opens
  | .error fault => run = .error (fault.toCompileError templates)

theorem KeepsOpen.of_same (keeps : KeepsOpen s opens) (mode : next.mode = s.mode)
    (scope : next.scope = s.scope) (openTags : next.openTags = s.openTags) : KeepsOpen next opens :=
  ⟨mode ▸ keeps.normal, scope ▸ keeps.scope, openTags ▸ keeps.openTags⟩

theorem OpenTag.map_mark {tags : List OpenTag} (each : List.Forall₂ OpenTag.Of tags opens) :
    tags.map (fun tag => tag.kind.sigil ++ tag.name) = opens.map Token.mark := by
  induction each with
  | nil => rfl
  | cons of _ ih => rw [List.map_cons, List.map_cons, ih, Token.mark, of.kind]

theorem KeepsOpen.openNames (keeps : KeepsOpen s opens) :
    s.openNames = opens.reverse.map Token.mark := by
  rw [State.openNames, keeps.normal, OpenTag.map_mark keeps.openTags, List.map_reverse]

theorem KeepsOpen.nestingError (keeps : KeepsOpen s opens) (error : NestingError)
    (position : Position) :
    nestingError body s error position =
      NestingFault.toCompileError body.stack.describe ⟨error, position, opens.reverse⟩ := by
  rw [Compile.nestingError, keeps.openNames]
  rfl

theorem OpenTag.Of.opened? {tag : OpenTag} {token : Token} (of : tag.Of token) :
    token.opened? = some tag.name := by
  simp [Token.opened?, of.kind, of.isOpening]

theorem closeTag_agrees (keeps : KeepsOpen s opens) (closes : t.token.closed? = some name) :
    Agrees body.stack.describe (Token.track opens t.token)
      (closeTag body s name t.token.position) := by
  have each := keeps.openTags
  unfold closeTag Token.track
  rw [closes]
  generalize same : s.openTags = tags at each ⊢
  cases each with
  | nil => exact congrArg Except.error (keeps.nestingError _ _)
  | @cons tag innermost outer rest of others =>
      dsimp only
      by_cases named : tag.name = name
      · rw [if_pos (by rw [of.opened?, named]), if_neg (not_not_intro named)]
        exact ⟨_, _, rfl, keeps.normal, of.scope, others⟩
      · have other : ¬ innermost.opened? = some name := by
          rw [of.opened?, Option.some.injEq]
          exact named
        rw [if_neg other, if_pos named, of.opened?]
        exact congrArg Except.error (keeps.nestingError _ _)

theorem KeepsOpen.openTag {kind : TagKind} {guards : Nat} {scope : Scope} {names : FreshNames}
    (keeps : KeepsOpen s opens) (tag : t.token.kind = .tag kind name)
    (isOpening : kind.isOpening = true) (grown : scope.Grown) :
    KeepsOpen (Compile.openTag { s with names } kind name t.token.position guards scope)
      (t.token :: opens) :=
  ⟨keeps.normal, grown, .cons ⟨tag, isOpening, rfl, keeps.scope⟩ keeps.openTags⟩

theorem meaning_of_ok {purpose : NameUse} {position : Position} {result : Meaning × FreshNames}
    (means : s.scope.meaning setting.schema name purpose s.names = .ok result) :
    meaning setting body s name purpose position = .ok result := by
  rw [meaning, means]
  rfl

theorem variableTag_agrees {purpose : NameUse} {escaping : Escaping} {position : Position}
    {found : ShapedExpr} (keeps : KeepsOpen s opens)
    (means : s.scope.meaning setting.schema name purpose s.names = .ok (.value found, s.names)) :
    Agrees body.stack.describe (.ok opens)
      (variableTag setting body s name purpose escaping position) := by
  have done : variableTag setting body s name purpose escaping position =
      .ok ((indentLine body s).1 ++ [.call (.value found.expr escaping)],
        (indentLine body s).2) := by
    rw [variableTag, meaning_of_ok means]
    rfl
  exact ⟨_, _, done, keeps.of_same rfl rfl rfl⟩

theorem sectionTag_agrees (noLambdas : setting.schema.lambdas = []) (keeps : KeepsOpen s opens)
    (tag : t.token.kind = .tag .openSection name) (simple : Scope.IsSimple name)
    (filled : name ≠ "") :
    Agrees body.stack.describe (.ok (t.token :: opens))
      (sectionTag setting body s name t.token.position) := by
  obtain ⟨guards, inside, names, means, grown⟩ :=
    keeps.scope.exists_openSection noLambdas simple filled s.names
  have done : sectionTag setting body s name t.token.position =
      .ok (guards.map fun guard => .call (.enterSection guard),
        openTag { s with names } .openSection name t.token.position guards.length inside) := by
    rw [sectionTag, meaning_of_ok means]
    rfl
  exact ⟨_, _, done, keeps.openTag tag rfl grown⟩

theorem invertedTag_agrees (noLambdas : setting.schema.lambdas = []) (keeps : KeepsOpen s opens)
    (tag : t.token.kind = .tag .openInverted name) (simple : Scope.IsSimple name)
    (filled : name ≠ "") :
    Agrees body.stack.describe (.ok (t.token :: opens))
      (invertedTag setting body s name t.token.position) := by
  obtain ⟨guard, names, means⟩ :=
    keeps.scope.exists_openInverted noLambdas simple filled s.names
  have done : invertedTag setting body s name t.token.position =
      .ok ([.call (.enterInverted guard)],
        openTag { s with names } .openInverted name t.token.position 1 (.inverted :: s.scope)) := by
    rw [invertedTag, meaning_of_ok means]
    rfl
  exact ⟨_, _, done, keeps.openTag tag rfl keeps.scope.inverted⟩

theorem plainTag_agrees (nested? : Option Nested) (body : Body)
    (noLambdas : setting.schema.lambdas = []) (keeps : KeepsOpen s opens)
    {kind : TagKind} (tag : t.token.kind = .tag kind name) (noInclusion : kind ≠ .inclusion)
    (noParent : kind ≠ .openParent) (simple : Scope.IsSimple name) (filled : name ≠ "") :
    Agrees body.stack.describe (Token.track opens t.token)
      (plainTag setting nested? body s kind name t.token.position) := by
  have cleared : KeepsOpen { s with pendingIndent := none } opens := keeps.of_same rfl rfl rfl
  have closed (other : kind ≠ .close) : t.token.closed? = none := by
    simp only [Token.closed?, tag]
    cases kind <;> first | rfl | exact absurd rfl other
  have opened : t.token.opened? = if kind.isOpening then some name else none := by
    rw [Token.opened?, tag]
  unfold plainTag
  cases kind with
  | inclusion => exact absurd rfl noInclusion
  | openParent => exact absurd rfl noParent
  | close => exact closeTag_agrees cleared (by rw [Token.closed?, tag])
  | escaped =>
      obtain ⟨found, means⟩ := keeps.scope.exists_variable noLambdas simple filled
        (.inl rfl) s.names
      rw [track_other opened (closed (by simp))]
      exact variableTag_agrees cleared means
  | unescaped =>
      obtain ⟨found, means⟩ := keeps.scope.exists_variable noLambdas simple filled
        (.inr rfl) s.names
      rw [track_other opened (closed (by simp))]
      exact variableTag_agrees cleared means
  | openSection =>
      rw [track_opening opened]
      exact sectionTag_agrees noLambdas cleared tag simple filled
  | openInverted =>
      rw [track_opening opened]
      exact invertedTag_agrees noLambdas cleared tag simple filled
  | openBlock =>
      rw [track_opening opened]
      exact ⟨_, _, rfl, cleared.openTag tag rfl keeps.scope⟩

theorem readToken_agrees (nested? : Option Nested) (body : Body)
    (noLambdas : setting.schema.lambdas = []) (keeps : KeepsOpen s opens)
    (simple : t.token.IsSimple) (role : t.token.tag?.isSome = true → t.role = .normal) :
    Agrees body.stack.describe (Token.track opens t.token)
      (readToken setting nested? body false false s t) := by
  rw [readToken_normal keeps.normal]
  cases tag : t.token.tag? with
  | none =>
      obtain ⟨events, next, read, same, -⟩ := readPlain_untagged setting nested? body s tag
      obtain ⟨noOpening, noEnd⟩ := opened?_of_untagged tag
      rw [track_other noOpening noEnd]
      exact ⟨events, next, read, by rw [same]; exact keeps.of_same rfl rfl rfl⟩
  | some found =>
      obtain ⟨kind, name⟩ := found
      have tagged := Token.kind_of_tag? tag
      have normal : t.role = .normal := role (by rw [tag]; rfl)
      obtain ⟨noInclusion, noParent, filled, plain⟩ := simple kind name tag
      have done := plainTag_agrees nested? body noLambdas keeps tagged
        noInclusion noParent plain filled
      simpa only [readPlain, normal, tagged] using done

theorem runAll_agrees (nested? : Option Nested) (body : Body)
    (noLambdas : setting.schema.lambdas = []) (tokens : List LineToken)
    (simple : ∀ t ∈ tokens, t.token.IsSimple)
    (roles : ∀ t ∈ tokens, t.token.tag?.isSome = true → t.role = .normal)
    (keeps : KeepsOpen s opens) :
    Agrees body.stack.describe ((tokens.map LineToken.token).foldlM Token.track opens)
      (runAll (readToken setting nested? body false false) s tokens) := by
  induction tokens generalizing s opens with
  | nil => exact ⟨[], s, rfl, keeps⟩
  | cons t tokens ih =>
      obtain ⟨here, further⟩ := List.forall_mem_cons.mp simple
      obtain ⟨role, others⟩ := List.forall_mem_cons.mp roles
      have first := readToken_agrees nested? body noLambdas keeps here role
      rw [List.map_cons, List.foldlM_cons, runAll]
      cases tracked : Token.track opens t.token with
      | error fault =>
          rw [tracked] at first
          have failed : readToken setting nested? body false false s t = .error _ := first
          rw [failed]
          rfl
      | ok next =>
          rw [tracked] at first
          obtain ⟨events, middle, done, still⟩ := first
          have rest := ih further others still
          rw [done, ok_bind, ok_bind]
          cases later : (tokens.map LineToken.token).foldlM Token.track next with
          | error fault =>
              rw [later] at rest
              have failed : runAll (readToken setting nested? body false false) middle tokens =
                .error _ := rest
              simp only [failed]
              rfl
          | ok last =>
              rw [later] at rest
              obtain ⟨more, final, run, ended⟩ := rest
              simp only [run]
              exact ⟨events ++ more, final, rfl, ended⟩

theorem checkClosed_of_keepsOpen (keeps : KeepsOpen s opens) :
    checkClosed body s = match opens with
      | [] => .ok ()
      | innermost :: outer => .error (NestingFault.toCompileError body.stack.describe
          ⟨.unclosed (innermost.opened?.getD ""), innermost.position,
            (innermost :: outer).reverse⟩) := by
  have each := keeps.openTags
  unfold checkClosed
  rw [keeps.normal]
  generalize s.openTags = tags at each
  cases each with
  | nil => rfl
  | cons of _ =>
      dsimp only
      rw [of.opened?, of.position]
      exact congrArg Except.error (keeps.nestingError _ _)

theorem compileWith_checkNested (setting : Setting) (nested? : Option Nested) (body : Body)
    (noLambdas : setting.schema.lambdas = []) (dynamic : body.scope.Grown) {tokens : List Token}
    (noBlocks : body.blocks = [])
    (read : tokenize body.stack.top.name body.source = .ok tokens)
    (simple : ∀ token ∈ tokens, token.IsSimple) :
    match Token.checkNested tokens with
    | .ok () => ∃ result, compileWith setting nested? body = .ok result
    | .error fault =>
        compileWith setting nested? body = .error (fault.toCompileError body.stack.describe) := by
  have ends := endsOnce_of_tokenize read
  have run := runAll_agrees nested? body noLambdas (LineClassifier.groupsOf tokens).flatten
    (fun t member => simple t.token (LineClassifier.token_mem_of_mem_groupsOf member))
    (fun t member => LineClassifier.role_of_tag ends member)
    (⟨rfl, dynamic, .nil⟩ : KeepsOpen (.start body) [])
  rw [LineClassifier.map_token_groupsOf ends] at run
  rw [compileWith_tokens noLambdas (groups_unreplaced noBlocks read), Token.checkNested]
  cases outcome : tokens.foldlM Token.track [] with
  | error fault =>
      rw [outcome] at run
      have failed : runAll (readToken setting nested? body false false) (.start body)
        (LineClassifier.groupsOf tokens).flatten = .error _ := run
      rw [failed]
      rfl
  | ok opens =>
      rw [outcome] at run
      obtain ⟨events, last, done, keeps⟩ := run
      simp only [done, ok_bind, checkClosed_of_keepsOpen keeps]
      cases opens with
      | nil => exact ⟨_, rfl⟩
      | cons innermost outer => rfl

end Compile

open Compile

variable {library : Library} {options : Options} {template : Template} {tokens : List Token}

theorem compile_checkNested (library : Library) (options : Options)
    (read : tokenize template.name template.source = .ok tokens)
    (simple : ∀ token ∈ tokens, token.IsSimple) :
    match Token.checkNested tokens with
    | .ok () => ∃ events, compile .dynamic library options template = .ok events
    | .error fault =>
        compile .dynamic library options template =
          .error (fault.toCompileError template.name) := by
  have done := compileWith_checkNested ⟨.dynamic, library, options⟩
    (nestedAt ⟨.dynamic, library, options⟩ options.maxIncludeDepth) (.root .dynamic template) rfl
    .root rfl read simple
  rw [← compileBody_eq] at done
  have named : (Body.root .dynamic template).stack.describe = template.name := rfl
  rw [named] at done
  cases outcome : Token.checkNested tokens with
  | error fault =>
      rw [outcome] at done
      exact congrArg (Except.map Prod.fst) done
  | ok _ =>
      rw [outcome] at done
      obtain ⟨⟨events, atLineStart⟩, done⟩ := done
      exact ⟨events, congrArg (Except.map Prod.fst) done⟩

/-- Without a schema, and with simple names, a template is compiled if and only if its tags are well
nested, and else it fails with the first fault among them. -/
theorem compile_wellNested (library : Library) (options : Options) (template : Template)
    (read : tokenize template.name template.source = .ok tokens)
    (simple : ∀ token ∈ tokens, ∀ kind name, token.tag? = some (kind, name) →
      kind ≠ .inclusion ∧ kind ≠ .openParent ∧ Scope.IsSimple name) :
    ((∃ events, compile .dynamic library options template = .ok events) ↔
      Token.WellNested tokens) ∧
    ∀ failure, compile .dynamic library options template = .error failure ↔
      ∃ fault, Token.FirstFault tokens fault ∧
        failure =
          .nesting fault.error fault.position (fault.opens.map Token.mark) template.name := by
  have outcome := compile_checkNested library options read
    fun token member kind name tag => by
      obtain ⟨noInclusion, noParent, plain⟩ := simple token member kind name tag
      exact ⟨noInclusion, noParent, filled_of_tag read member tag, plain⟩
  have nested (wellNested : Token.WellNested tokens) :
      ∃ events, compile .dynamic library options template = .ok events := by
    rwa [wellNested.checkNested] at outcome
  have faulty {fault : NestingFault} (first : Token.FirstFault tokens fault) :
      compile .dynamic library options template =
        .error (fault.toCompileError template.name) := by
    rwa [first.checkNested] at outcome
  refine ⟨⟨?_, nested⟩, ?_⟩
  · rintro ⟨events, done⟩
    obtain wellNested | ⟨fault, first⟩ := Token.wellNested_or_fault tokens
    · exact wellNested
    · cases done.symm.trans (faulty first)
  · intro failure
    constructor
    · intro failed
      obtain wellNested | ⟨fault, first⟩ := Token.wellNested_or_fault tokens
      · obtain ⟨events, done⟩ := nested wellNested
        cases done.symm.trans failed
      · exact ⟨fault, first, Except.error.inj (failed.symm.trans (faulty first))⟩
    · rintro ⟨fault, first, rfl⟩
      exact faulty first

/-- A block is open in a section where the section is closed. -/
theorem compile_wellNested_block :
    ∃ tokens, tokenize "main" "{{#a}}\n{{$b}}x{{/a}}" =
        .ok tokens ∧ ¬ Token.WellNested tokens ∧
      compile .dynamic (.ofCatalog []) .default
          ⟨"main", "{{#a}}\n{{$b}}x{{/a}}"⟩ =
        .error (.nesting (.mismatchedClose "b" "a")
          ⟨"main", 2, 8, "{{$b}}x{{/a}}"⟩ ["#a", "$b"] "main") := by
  let place (column : Nat) : Position := ⟨"main", 2, column, "{{$b}}x{{/a}}"⟩
  let outer : Token := ⟨.tag .openSection "a", ⟨"main", 1, 1, "{{#a}}"⟩, "{{#a}}"⟩
  let newline : Token := ⟨.newline .lf, ⟨"main", 1, 7, "{{#a}}"⟩, "\n"⟩
  let inner : Token := ⟨.tag .openBlock "b", place 1, "{{$b}}"⟩
  let text : Token := ⟨.text "x", place 7, "x"⟩
  let closing : Token := ⟨.tag .close "a", place 8, "{{/a}}"⟩
  let ending : Token := ⟨.eof, place 14, ""⟩
  have read : tokenize "main" "{{#a}}\n{{$b}}x{{/a}}" =
      .ok [outer, newline, inner, text, closing, ending] := by
    decide +kernel
  have within : Token.LeavesOpen [newline, inner, text] [inner] :=
    .some (.one rfl rfl) rfl (.none (.one rfl rfl))
  have before : Token.LeavesOpen [outer, newline, inner, text] ([outer] ++ [inner]) :=
    .some .nil rfl within
  have parted : [outer, newline, inner, text, closing, ending] =
    [outer, newline, inner, text] ++ closing :: [ending] := rfl
  have closes : closing.closed? = some "a" := rfl
  have faulty : Token.FirstFault [outer, newline, inner, text, closing, ending]
      ⟨.mismatchedClose "b" "a", place 8, [outer, inner]⟩ :=
    .mismatched parted closes before rfl (by decide)
  have simple : ∀ token ∈ [outer, newline, inner, text, closing, ending], ∀ kind name,
      token.tag? = some (kind, name) →
        kind ≠ .inclusion ∧ kind ≠ .openParent ∧ Scope.IsSimple name := by
    intro token member kind name tag
    simp only [List.mem_cons, List.not_mem_nil, or_false] at member
    rcases member with rfl | rfl | rfl | rfl | rfl | rfl
    all_goals cases tag
    all_goals decide +kernel
  obtain ⟨accepted, failed⟩ :=
    compile_wellNested (.ofCatalog []) .default ⟨"main", _⟩ read simple
  have error := (failed _).mpr ⟨_, faulty, rfl⟩
  refine ⟨_, read, ?_, error⟩
  intro nested
  obtain ⟨events, done⟩ := accepted.mpr nested
  cases done.symm.trans error

end Stencil
