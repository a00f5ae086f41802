import Stencil.Proofs.Compile.LambdaSections
import Stencil.Proofs.Compile.Requests

/-!
What a lambda section comes to. Main statement: the first end tag that is not of a construct within
ends it, and must have its name; it becomes one call of the lambda, unless templates are nested as
deeply as they may be.
-/

namespace Stencil

namespace Compile

open LineClassifier Token

variable {setting : Setting} {nested? : Option Nested} {body : Body} {s : State} {t : LineToken}
  {held : LambdaSection} {depth : Nat} {closing standalone : Bool} {group : LineGroup}
  {tokens inside : List LineToken} {lines : List LineGroup} {ending : LineToken}

structure LambdaSection.Grows (held next : LambdaSection) (depth : Nat) : Prop where
  name : next.name = held.name
  depth : next.depth = depth
  opening : next.opening = held.opening

theorem nestingError_reading (body : Body) (s : State) (held : LambdaSection) (error : NestingError)
    (position : Position) :
    nestingError body (s.reading held) error position =
      .nesting error position ({ s with mode := .normal }.openNames ++ ["#" ++ held.name])
        body.stack.describe := rfl

theorem readToken_open (next : t.token.depthAfter? held.depth = some depth)
    (opened : held.opening = false) :
    ∃ further, held.Grows further depth ∧
      readToken setting nested? body closing standalone (s.reading held) t =
        .ok ([], s.reading further) := by
  have kept (depth : Nat) : ∃ further, held.Grows further depth ∧
      (.ok ([], s.reading (held.add t.token.raw depth)) : Outcome) = .ok ([], s.reading further) :=
    ⟨held.add t.token.raw depth, ⟨rfl, rfl, rfl⟩, rfl⟩
  have other (same : held.depth = depth) : ∃ further, held.Grows further depth ∧
      (if closing then .ok ([], s.reading held)
        else .ok ([], s.reading (held.add t.token.raw held.depth)) : Outcome) =
          .ok ([], s.reading further) := by
    subst same
    split
    · exact ⟨held, ⟨rfl, rfl, rfl⟩, rfl⟩
    · exact kept _
  obtain ⟨⟨kind, position, raw⟩, role⟩ := t
  dsimp only [readToken, State.reading]
  unfold readLambda
  rw [if_neg (by simp [opened])]
  unfold Token.depthAfter? at next
  cases kind with
  | tag kind name =>
      cases kind with
      | close =>
          dsimp only at next ⊢
          split at next
          · cases next
          · next deeper =>
              rw [if_pos deeper, ← Option.some.inj next]
              exact kept _
      | openSection | openInverted | openParent | openBlock =>
          obtain rfl := Option.some.inj next
          exact kept _
      | _ => exact other (Option.some.inj next)
  | eof => cases next
  | _ => exact other (Option.some.inj next)

theorem readToken_unclosed (isEof : t.token.isEof = true)
    (written : held.opening = true → t.role ≠ .ignore) :
    readToken setting nested? body closing standalone (s.reading held) t =
      .error (nestingError body (s.reading held) (.unclosed held.name) t.token.position) := by
  have counts : (held.opening && decide (t.role = .ignore)) = false := by
    cases opening : held.opening with
    | false => rfl
    | true => simpa using written opening
  have kind := isEof_iff.mp isEof
  dsimp only [readToken, State.reading]
  unfold readLambda
  rw [if_neg (by simp [counts])]
  simp only [kind]

theorem runAll_unclosed {rest : List LineToken}
    (next : (tokens.map LineToken.token).foldlM depthAfter? held.depth = some depth)
    (opened : held.opening = false) (isEof : ending.token.isEof = true) :
    runAll (readToken setting nested? body closing standalone) (s.reading held)
        (tokens ++ ending :: rest) =
      .error (nestingError body (s.reading held) (.unclosed held.name) ending.token.position) := by
  induction tokens generalizing held with
  | nil =>
      rw [List.nil_append, runAll, readToken_unclosed isEof (by simp [opened])]
      rfl
  | cons t tokens ih =>
      rw [List.map_cons, List.foldlM_cons] at next
      obtain ⟨middle, here, next⟩ := Option.bind_eq_some_iff.mp next
      obtain ⟨further, grows, read⟩ := readToken_open here opened
      have last := ih (by rwa [grows.depth]) (grows.opening.trans opened)
      rw [nestingError_reading, grows.name, ← nestingError_reading] at last
      rw [List.cons_append, runAll, read, ok_bind]
      simp only [last, error_bind]

theorem runAll_groups_unclosed {rest : List LineToken} (formed : ∀ group ∈ lines, Formed group)
    (split : lines.flatten = inside ++ ending :: rest)
    (next : (inside.map LineToken.token).foldlM depthAfter? held.depth = some depth)
    (opened : held.opening = false) (isEof : ending.token.isEof = true) :
    runAll (readGroup setting nested? body) (s.reading held) lines =
      .error (nestingError body (s.reading held) (.unclosed held.name) ending.token.position) := by
  induction lines generalizing held inside with
  | nil => cases List.append_eq_nil_iff.mp split.symm |>.2
  | cons group lines ih =>
      obtain ⟨here, further⟩ := List.forall_mem_cons.mp formed
      rw [List.flatten_cons] at split
      obtain ⟨more, rfl, rest⟩ | ⟨post, rfl, rfl⟩ := append_eq_append_cons split
      · rw [List.map_append, List.foldlM_append] at next
        obtain ⟨middle, first, next⟩ := Option.bind_eq_some_iff.mp next
        have deeper : (more.map LineToken.token).foldlM depthAfter?
            (held.add (text (group.map LineToken.token)) middle).depth = some depth := next
        rw [runAll, readGroup_keep here first opened, ok_bind]
        simp only [ih further rest deeper opened, error_bind]
        rfl
      · rw [runAll, readGroup, runAll_unclosed next opened isEof]
        rfl

variable {opening : Token} {pre post : List LineToken}

theorem finish_unclosed (setting : Setting) (nested? : Option Nested) (body : Body) (s : State)
    (sectionName : String) (position : Position) (decl : LambdaDecl) {rest : List LineToken}
    (formed : Formed (pre ++ .of .normal opening :: post)) (isTag : opening.isStandalone = true)
    (formedLater : ∀ group ∈ lines, Formed group)
    (split : post ++ lines.flatten = inside ++ ending :: rest) (isEof : ending.token.isEof = true)
    (next : (inside.map LineToken.token).foldlM depthAfter? 0 = some depth) :
    finish setting nested? body false false
        (.ok ([], s.reading (.start sectionName position decl))) post lines =
      .error (.nesting (.unclosed sectionName) ending.token.position
        ({ s with mode := .normal }.openNames ++ ["#" ++ sectionName]) body.stack.describe) := by
  obtain ⟨more, rfl, rest⟩ | ⟨rest, rfl, rfl⟩ := append_eq_append_cons split
  · rw [List.map_append, List.foldlM_append] at next
    obtain ⟨middle, first, next⟩ := Option.bind_eq_some_iff.mp next
    obtain ⟨kept, opens, -, -⟩ :=
      finish_opening setting nested? body s sectionName position decl formed isTag first
    rw [opens, runAll_groups_unclosed formedLater rest next rfl isEof, nestingError_reading]
  · obtain ⟨-, -, same⟩ | ⟨tag, isTag, -, same⟩ | ⟨line, -, -, same⟩ := formed.around isTag
    · cases List.append_eq_nil_iff.mp same |>.2
    · have member : ending ∈ [LineToken.of .normal tag] := by simp [← same]
      have inside := endsLine_of_isStandalone isTag
      rw [Token.endsLine, Bool.or_eq_false_iff] at inside
      rw [List.mem_singleton.mp member] at isEof
      cases inside.2.symm.trans isEof
    · have within := isEof_of_foldlM next
      have ofLine : ∀ t ∈ inside ++ ending :: rest, ∃ token, LineToken.of .ignore token = t := by
        intro t member
        rw [same] at member
        obtain ⟨token, -, of⟩ := List.mem_map.mp member
        exact ⟨token, of⟩
      have ignored : ∀ t ∈ inside, t.role = .ignore := by
        intro t member
        obtain ⟨token, rfl⟩ := ofLine t (List.mem_append_left _ member)
        have isInside : token.isEof = false := within token (List.mem_map_of_mem member)
        simp [LineToken.of, isInside]
      have written : ending.role ≠ .ignore := by
        obtain ⟨token, rfl⟩ := ofLine ending (by simp)
        have isLast : token.isEof = true := isEof
        simp [LineToken.of, isLast]
      have failed : runAll (readToken setting nested? body false false)
          (s.reading (.start sectionName position decl)) (inside ++ ending :: rest) =
            .error (nestingError body (s.reading (.start sectionName position decl))
              (.unclosed sectionName) ending.token.position) := by
        rw [runAll_append, runAll_skip rfl ignored, ok_bind]
        simp only [runAll, readToken_unclosed isEof fun _ => written, error_bind]
        rfl
      rw [finish, finishGroup, ok_bind]
      simp only [failed, error_bind]
      rfl

/-- What a body comes to behind the end tag of a section: the rest of the group of the tag is read,
and then the rest of the groups. -/
def readOn (setting : Setting) (nested? : Option Nested) (body : Body) (closing standalone : Bool)
    (outcome : Outcome) (rest : List LineToken) (later : List LineGroup) :
    Except CompileError (List Event × Bool) := do
  let (events, s) ← finish setting nested? body closing standalone outcome rest later
  checkClosed body s
  return (events, s.atLineStart)

theorem lambdaIndent_leading (body : Body) (s : State) (standalone : Bool) :
    ∀ event ∈ (lambdaIndent body s standalone).1, event = .call (.literal body.indent) := by
  unfold lambdaIndent indentLine
  split
  · exact List.forall_mem_nil _
  · dsimp only
    split
    · exact List.forall_mem_singleton.mpr rfl
    · exact List.forall_mem_nil _

theorem lambdaIndent_after (body : Body) (s : State) (standalone : Bool) :
    ∃ atLineStart, (lambdaIndent body s standalone).2 = { s with atLineStart } := by
  unfold lambdaIndent
  split
  · exact ⟨s.atLineStart, rfl⟩
  · exact ⟨false, rfl⟩

namespace LambdaOpening

variable {inner after : List Token} {closer : Token} {name : String}
  (o : LambdaOpening setting nested? body)

theorem openNames_opened :
    { o.opened with mode := .normal }.openNames ++ ["#" ++ o.name] =
      o.state.openNames ++ ["#" ++ o.name] := by
  rw [State.openNames, State.openNames, o.normal]
  rfl

theorem unclosed (ends : EndsOnce (o.front ++ o.tag :: o.rest))
    (grouped : groups body = .ok (groupsOf (o.front ++ o.tag :: o.rest)))
    (open_ : ∀ inner closer after name, o.rest = inner ++ closer :: after → IsBalanced inner →
      closer.kind ≠ .tag .close name) :
    ∃ inner ending, o.rest = inner ++ [ending] ∧ ending.isEof = true ∧
      compileWith setting nested? body = .error (.nesting (.unclosed o.name) ending.position
        (o.state.openNames ++ ["#" ++ o.name]) body.stack.describe) := by
  have within : o.tag.isEof = false := by rw [Token.isEof, o.isSection]
  have endsBehind : EndsOnce o.rest :=
    (endsOnce_of_append (List.cons_ne_nil _ _) ends).tail within
  obtain ⟨inner, closer, after, name, split, closes, balanced⟩ |
    ⟨inner, ending, last, split, isEof, within⟩ := endsBehind.exists_end 0
  · exact absurd closes (open_ inner closer after name split balanced)
  · refine ⟨inner, ending, split, isEof, ?_⟩
    obtain ⟨formedHere, formedLater⟩ := o.formed ends grouped
    obtain ⟨inside, rest, parts, rfl, atEnd⟩ := List.map_eq_append_iff.mp split
    obtain ⟨e, rest, rfl, rfl, -⟩ := List.map_eq_cons_iff.mp atEnd
    have failed := finish_unclosed setting nested? body o.opened o.name o.tag.position o.decl
      formedHere o.isStandalone formedLater parts isEof within
    rw [o.compileWith_eq _ o.run, finish_ok, failed, openNames_opened]
    rfl

def wholly (inner : List Token) (closer : Token) (after : List Token) : LambdaSection :=
  ⟨o.name, o.tag.position, o.decl, text (between o.front o.tag inner closer after), 0, false⟩

def calling : State := { o.opened with mode := .normal }

/-- At its end tag the section becomes the call of its lambda, behind which the body is read on. -/
theorem compileWith_calling {nested : Nested} (o : LambdaOpening setting (some nested) body)
    (ends : EndsOnce (o.front ++ o.tag :: o.rest))
    (grouped : groups body = .ok (groupsOf (o.front ++ o.tag :: o.rest)))
    (split : o.rest = inner ++ closer :: after) (balanced : IsBalanced inner)
    (closes : closer.kind = .tag .close o.name) :
    ∃ flag earlier here rest later,
      groupsOf (o.front ++ o.tag :: o.rest) =
        earlier ++ (here ++ .of .normal closer :: rest) :: later ∧
      (earlier.flatten ++ here).map LineToken.token = o.front ++ o.tag :: inner ∧
      (rest ++ later.flatten).map LineToken.token = after ∧
      compileWith setting (some nested) body =
        readOn setting (some nested) body flag (endsAlone o.name here rest)
          (.ok (o.events ++ ((lambdaIndent body o.calling (endsAlone o.name here rest)).1 ++
              [.lambda (lambdaCall body o.calling (o.wholly inner closer after)
                (endsAlone o.name here rest))
                (lambdaOutcome setting nested body o.calling (o.wholly inner closer after))]),
            (lambdaIndent body o.calling (endsAlone o.name here rest)).2)) rest later := by
  obtain ⟨flag, standalone, earlier, here, rest, later, groups, inFront, behind, alone, run⟩ :=
    o.ended ends grouped split balanced closes
  obtain rfl := alone rfl
  have compiled := o.compileWith_eq _ run
  rw [endLambda, if_neg (not_not_intro rfl), callLambda_eq] at compiled
  exact ⟨flag, earlier, here, rest, later, groups, inFront, behind, compiled⟩

/-- A lambda section is read up to the first end tag that is not of a construct within. It becomes
one call of the lambda, with what stands between the tags, and the body is read on behind it; unless
the end tag has another name, or is missing, or templates are nested as deeply as they may be. -/
theorem compileWith_outcome (noBlocks : ∀ name, body.blocks.find? name = none) :
    (∀ inner closer after name, o.rest = inner ++ closer :: after → IsBalanced inner →
      closer.kind = .tag .close name →
        (name ≠ o.name → compileWith setting nested? body =
          .error (.nesting (.mismatchedClose o.name name) closer.position
            (o.state.openNames ++ ["#" ++ o.name]) body.stack.describe)) ∧
        (name = o.name → nested? = none → compileWith setting nested? body =
          .error (.includeDepth o.name setting.options.maxIncludeDepth o.tag.position
            body.stack.describe)) ∧
        (name = o.name → nested?.isSome = true →
          ∃ leading call template s closing standalone rest later,
            (∀ event ∈ leading, event = .call (.literal body.indent)) ∧ call.name = o.name ∧
            call.body = text (between o.front o.tag inner closer after) ∧
            s.mode = .normal ∧ s.scope = o.state.scope ∧ s.openTags = o.state.openTags ∧
            (rest ++ later.flatten).map LineToken.token = after ∧
            compileWith setting nested? body = readOn setting nested? body closing standalone
              (.ok (o.events ++ (leading ++ [.lambda call template]), s)) rest later)) ∧
    ((∀ inner closer after name, o.rest = inner ++ closer :: after → IsBalanced inner →
      closer.kind ≠ .tag .close name) →
        ∃ inner ending, o.rest = inner ++ [ending] ∧ ending.isEof = true ∧
          compileWith setting nested? body = .error (.nesting (.unclosed o.name) ending.position
            (o.state.openNames ++ ["#" ++ o.name]) body.stack.describe)) := by
  obtain ⟨tokens, read, same⟩ := groups_ungiven noBlocks o.grouped
  have ends := endsOnce_of_tokenize read
  have grouped : groups body = .ok (groupsOf tokens) := same ▸ o.grouped
  obtain rfl := o.tokens_of_groups ends grouped
  refine ⟨fun inner closer after name split balanced closes => ?_, o.unclosed ends grouped⟩
  obtain ⟨flag, standalone, -, -, rest, later, -, -, -, -, run⟩ :=
    o.ended ends grouped split balanced closes
  have compiled := o.compileWith_eq _ run
  refine ⟨fun other => ?_, fun same none => ?_, fun same some => ?_⟩
  · rw [compiled, endLambda, if_pos other, nestingError_reading, openNames_opened]
    rfl
  · subst none
    rw [compiled, endLambda, if_neg (not_not_intro same)]
    rfl
  · obtain ⟨nested, rfl⟩ := Option.isSome_iff_exists.mp some
    obtain rfl := same
    obtain ⟨flag, -, here, rest, later, -, -, behind, called⟩ :=
      o.compileWith_calling ends grouped split balanced closes
    obtain ⟨atLineStart, state⟩ :=
      lambdaIndent_after body o.calling (endsAlone o.name here rest)
    refine ⟨_, _, _, _, flag, _, rest, later, lambdaIndent_leading body _ _, rfl, rfl, ?_, ?_, ?_,
      behind, called⟩
    all_goals
      rw [state]
      rfl

end LambdaOpening

theorem compileWith_outcome_tags_within :
    ∃ (setting : Setting) (body : Body)
      (o : LambdaOpening setting (some (compileBody setting 0)) body) (inner after : List Token)
      (closer : Token),
      body.source = "{{#f}}{{#a}}x{{/b}}{{/f}}" ∧
        (∀ name, body.blocks.find? name = none) ∧ o.rest = inner ++ closer :: after ∧
        IsBalanced inner ∧ closer.kind = .tag .close o.name ∧
        text (between o.front o.tag inner closer after) =
          "{{#a}}x{{/b}}" ∧
        ∃ leading call template s closing standalone rest later,
          (∀ event ∈ leading, event = .call (.literal body.indent)) ∧ call.name = o.name ∧
          call.body = text (between o.front o.tag inner closer after) ∧
          s.mode = .normal ∧ s.scope = o.state.scope ∧ s.openTags = o.state.openTags ∧
          (rest ++ later.flatten).map LineToken.token = after ∧
          compileWith setting (some (compileBody setting 0)) body =
            readOn setting (some (compileBody setting 0)) body closing standalone
              (.ok (o.events ++ (leading ++ [.lambda call template]), s)) rest later := by
  let schema := (Schema.ofRoot (.struct "Page")).withStruct "Page" ⟨[], [("f", .raw)]⟩
  let setting : Setting := ⟨schema, .ofCatalog [], .default⟩
  let source := "{{#f}}{{#a}}x{{/b}}{{/f}}"
  let body : Body := .root schema ⟨"main", source⟩
  let place (column : Nat) : Position := ⟨"main", 1, column, source⟩
  let opening : Token := ⟨.tag .openSection "f", place 1, "{{#f}}"⟩
  let inside : Token := ⟨.tag .openSection "a", place 7, "{{#a}}"⟩
  let word : Token := ⟨.text "x", place 13, "x"⟩
  let other : Token := ⟨.tag .close "b", place 14, "{{/b}}"⟩
  let closer : Token := ⟨.tag .close "f", place 20, "{{/f}}"⟩
  let ending : Token := ⟨.eof, place 26, ""⟩
  let o : LambdaOpening setting (some (compileBody setting 0)) body :=
    { earlier := []
      pre := []
      tag := opening
      post := [⟨inside, .normal⟩]
      later := [single word, single other, single closer, single ending]
      name := "f"
      decl := .raw
      names := .root
      events := []
      state := .start body
      grouped := by decide +kernel
      isSection := rfl
      reached := rfl
      normal := rfl
      means := by decide +kernel }
  have noBlocks : ∀ name, body.blocks.find? name = none := fun _ => rfl
  have split : o.rest = [inside, word, other] ++ closer :: [ending] := rfl
  have balanced : IsBalanced [inside, word, other] := by decide
  obtain ⟨-, -, calls⟩ := (o.compileWith_outcome noBlocks).1 _ _ _ _ split balanced rfl
  exact ⟨setting, body, o, _, _, closer, rfl, noBlocks, split, balanced, rfl, by decide +kernel,
    calls rfl rfl⟩

/-- Where templates are nested as deeply as they may be there is no call. -/
theorem no_call_at_depth :
    ∃ (schema : Schema) (inner after : List Token) (opening closer : Token),
      tokenize "main" "{{#f}}x{{/f}}" =
          .ok (opening :: (inner ++ closer :: after)) ∧
        opening.kind = .tag .openSection "f" ∧ IsBalanced inner ∧
        closer.kind = .tag .close "f" ∧
        (Scope.root schema.root).meaning schema "f" .openSection .root = .ok (.lambda .raw, .root) ∧
        compile schema (.ofCatalog []) ⟨0⟩ ⟨"main", "{{#f}}x{{/f}}"⟩ =
          .error (.includeDepth "f" 0 opening.position (TemplateStack.root "main").describe) := by
  let schema := (Schema.ofRoot (.struct "Page")).withStruct "Page" ⟨[], [("f", .raw)]⟩
  let place (column : Nat) : Position := ⟨"main", 1, column, "{{#f}}x{{/f}}"⟩
  have seen : (compile schema (.ofCatalog []) ⟨0⟩
      ⟨"main", "{{#f}}x{{/f}}"⟩).map (List.map Event.seen) =
        .error (.includeDepth "f" 0 (place 1) (TemplateStack.root "main").describe) := by
    decide +kernel
  exact ⟨schema, [⟨.text "x", place 7, "x"⟩], [⟨.eof, place 14, ""⟩],
    ⟨.tag .openSection "f", place 1, "{{#f}}"⟩,
    ⟨.tag .close "f", place 8, "{{/f}}"⟩, eq_ok_of_toOption (by decide +kernel), rfl,
    by decide, rfl, by decide +kernel, map_eq_error.mp seen⟩

end Compile

end Stencil
