import Stencil.Proofs.Compile.Failures
import Stencil.Proofs.Compile.LambdaCalls
import Stencil.Proofs.Token.Reclassified

/-!
Errors for constructs that are not closed. Main statement: a tag that the error is for has no end
tag in its template. The error is placed at the tag, unless what is behind the tag is kept for a
parent call or a lambda: then it is placed at the end of the template.
-/

namespace Stencil

theorem LineClassifier.Formed.role_of_isEof {group : LineGroup} (formed : Formed group)
    {t : LineToken} (member : t ∈ group) (isEof : t.token.isEof = true) : t.role = .eof := by
  have given (role : Role) (token : Token) (same : t = .of role token) : t.role = .eof := by
    subst same
    exact if_pos isEof
  have mapped {role : Role} {tokens : List Token} (member : t ∈ tokens.map (LineToken.of role)) :
      t.role = .eof := by
    obtain ⟨token, -, same⟩ := List.mem_map.mp member
    exact given role token same.symm
  cases formed with
  | single token => exact given _ _ (List.mem_singleton.mp member)
  | pair first _ =>
      rcases List.mem_pair.mp member with same | same
      all_goals exact given _ _ same
  | line line =>
      rw [StandaloneLine.group] at member
      rcases List.mem_append.mp member with before | rest
      · exact mapped before
      · rcases List.mem_cons.mp rest with tag | after
        · exact given _ _ tag
        · exact mapped after

namespace ParentCall

theorem isEof_of_unclosed {call : ParentCall} {token : Token} {name : String}
    (failed : call.push token = .error (.unclosed name)) :
    token.isEof = true ∧ name = call.parent := by
  unfold push at failed
  split at failed
  · unfold closeTag at failed
    dsimp only at failed
    repeat' split at failed
    all_goals cases failed
  · split at failed
    · have opened := map_eq_error.mp failed
      unfold openTag at opened
      repeat' split at opened
      all_goals cases opened
    · cases failed
  · next ending =>
      cases failed
      exact ⟨Token.isEof_iff.mpr ending, rfl⟩
  · cases failed

end ParentCall

namespace Compile

open Token

variable {setting : Setting} {nested? : Option Nested} {body : Body} {s : State} {t : LineToken}
  {name other templates : String} {position : Position} {openNames : List String}

theorem meaning_ne_unclosed {purpose : NameUse} {place : Position} :
    meaning setting body s name purpose place ≠
      .error (.nesting (.unclosed other) position openNames templates) := by
  unfold meaning
  cases s.scope.meaning setting.schema name purpose s.names with
  | ok result => exact nofun
  | error problem => cases problem <;> exact nofun

theorem FailsAlone.unclosed
    (failed : FailsAlone setting body s t
      (.nesting (.unclosed name) position openNames templates)) :
    t.token.isEof = true ∧ position = t.token.position ∧ templates = body.stack.describe ∧
      ((∃ call indent, s.mode = .parent call indent ∧ name = call.parent) ∨
        ∃ held, s.mode = .lambda held ∧ name = held.name) := by
  cases failed with
  | name _ _ unknown => exact absurd unknown meaning_ne_unclosed
  | close other => simp at other
  | parent mode refused =>
      obtain ⟨isEof, rfl⟩ := ParentCall.isEof_of_unclosed refused
      exact ⟨isEof, rfl, rfl, .inl ⟨_, _, mode, rfl⟩⟩
  | lambda mode ending => exact ⟨isEof_iff.mpr ending, rfl, rfl, .inr ⟨_, mode, rfl⟩⟩

variable {read : List LineToken}

section

variable (collected : body.blocks.AreCollected)

include collected

theorem Point.exists_source (p : Point setting nested? body) (isEof : p.token.token.isEof = true) :
    ∃ source, tokenize body.stack.top.name body.source = .ok (source ++ [p.token.token]) ∧
      (∀ token ∈ source, token.isEof = false) ∧
      (BlockReplacement.start body.blocks).replaceAll source = p.passed.map LineToken.token := by
  obtain ⟨whole, read, ends, lines⟩ := exists_groupsOf collected p.grouped
  obtain ⟨source, ending, rfl, isEnding, inside⟩ := endsOnce_of_tokenize read
  have last : ((BlockReplacement.start body.blocks).after source).replaceAll [ending] =
    [ending] := by
    simp [BlockReplacement.replaceAll, BlockReplacement.replace, isEof_iff.mp isEnding]
  have flat := LineClassifier.map_token_groupsOf ends
  rw [← lines, BlockReplacement.replaceAll_append, last] at flat
  have behind : p.back ++ p.later.flatten = [] := by
    by_contra more
    have once := (p.endsOnce collected).1
    rw [← List.singleton_append, ← List.append_assoc, List.map_append] at once
    have within := once.isEof_of_mem (by simpa using more) p.token.token (by simp)
    cases isEof.symm.trans within
  have shown : (p.earlier ++ (p.front ++ p.token :: p.back) :: p.later).flatten =
      p.passed ++ [p.token] := by
    rw [List.flatten_append, List.flatten_cons, List.append_assoc p.front, List.cons_append, behind,
      ← List.append_assoc]
    rfl
  rw [shown, List.map_append, List.map_singleton] at flat
  obtain ⟨same, final⟩ := List.append_inj' flat rfl
  rw [List.singleton_inj.mp final]
  exact ⟨source, read, inside, same.symm⟩

theorem Point.exists_unmatched (p : Point setting nested? body) (isEof : p.token.token.isEof = true)
    (nested : body.blocks.AreNested) {stack : List (Point setting nested? body)}
    (awaits : Awaits p.passed stack) {q : Point setting nested? body} (member : q ∈ stack)
    (opened : q.token.token.opened? = some name) :
    ∃ before behind, tokenize body.stack.top.name body.source =
        .ok (before ++ q.token.token :: (behind ++ [p.token.token])) ∧ Unmatched name behind := by
  obtain ⟨source, read, inside, same⟩ := p.exists_source collected isEof
  obtain ⟨i, bound, found⟩ := List.getElem_of_mem member
  obtain ⟨rest, split, within⟩ := awaits.depth i (by rw [List.getElem?_eq_getElem bound, found])
  rw [split, List.map_append, List.map_cons] at same
  obtain ⟨before, behind, rfl, unmatched⟩ :=
    BlockReplacement.exists_unmatched nested inside same opened (unmatched_of_depth within)
  exact ⟨before, behind, by simpa using read, unmatched⟩

theorem Point.role_ne_ignore (p : Point setting nested? body) (isEof : p.token.token.isEof = true) :
    p.token.role ≠ .ignore := by
  obtain ⟨source, -, ends, lines⟩ := exists_groupsOf collected p.grouped
  have member : p.front ++ p.token :: p.back ∈
      LineClassifier.groupsOf ((BlockReplacement.start body.blocks).replaceAll source) := by
    rw [← lines]
    exact List.mem_append_right _ (List.mem_cons_self ..)
  rw [LineClassifier.groupsOf_eq_drain ends] at member
  have role :=
    (LineClassifier.formed_of_mem_drain member).role_of_isEof (t := p.token) (by simp) isEof
  simp [role]

theorem Point.normal_of_isEof (p : Point setting nested? body) (isEof : p.token.token.isEof = true)
    {events : List Event} {next : State} (done : p.outcome = .ok (events, next)) :
    p.state.mode = .normal ∧ next = p.state := by
  unfold outcome readToken at done
  split at done
  · next normal =>
      rw [readPlain_eof (isEof_iff.mp isEof)] at done
      cases done
      exact ⟨normal, rfl⟩
  · unfold readParent at done
    rw [ParentCall.push_eof isEof] at done
    cases done
  · next held mode =>
      have reading : p.state.reading held = p.state := by rw [State.reading, ← mode]
      have failed : readToken setting nested? body p.closing p.standalone (p.state.reading held)
          p.token = .error _ :=
        readToken_unclosed isEof fun _ => p.role_ne_ignore collected isEof
      rw [readToken, reading, mode] at failed
      cases failed.symm.trans done

theorem exists_point_at_end {lines : List LineGroup} {events : List Event} {last : State}
    (grouped : groups body = .ok lines)
    (run : runAll (readGroup setting nested? body) (.start body) lines = .ok (events, last)) :
    ∃ p : Point setting nested? body, p.token.token.isEof = true ∧ p.state.mode = .normal ∧
      p.state = last := by
  have kept : Invariant setting nested? body fun read s =>
      (∃ t ∈ read.getLast?, t.token.isEof = true) → ∃ p : Point setting nested? body,
        p.token.token.isEof = true ∧ p.state.mode = .normal ∧ p.state = s := by
    refine ⟨by simp, ?_, ?_⟩
    · intro p events next _ done ends
      rw [List.getLast?_concat] at ends
      obtain ⟨t, same, isEof⟩ := ends
      obtain rfl := Option.some.inj same
      obtain ⟨normal, rfl⟩ := p.normal_of_isEof collected isEof done
      exact ⟨p, isEof, normal, rfl⟩
    · intro passed s ends isEof
      obtain ⟨p, isEof, normal, rfl⟩ := ends isEof
      refine ⟨p, isEof, normal, ?_⟩
      rw [endGroup, normal]
  have all : groups body = .ok (lines ++ []) := by rwa [List.append_nil]
  have whole := kept.groups all run
  obtain ⟨source, -, ends, same⟩ := exists_groupsOf collected grouped
  have flat := LineClassifier.map_token_groupsOf ends
  rw [← same] at flat
  obtain ⟨front, ending, split, isEof, -⟩ := ends
  rw [split, List.map_eq_append_iff] at flat
  obtain ⟨before, rest, spelled, -, final⟩ := flat
  obtain ⟨t, rfl, rfl⟩ := List.map_eq_singleton_iff.mp final
  exact whole ⟨t, by rw [spelled, List.getLast?_concat]; rfl, isEof⟩

/-- Where the error for something unclosed is placed in a body. -/
theorem FailsHere.unclosed_position
    (here : FailsHere setting nested? body (.nesting (.unclosed name) position openNames templates))
    (nested : body.blocks.AreNested) :
    (∃ (q : Point setting nested? body) (before behind : List Token) (ending : Token),
      tokenize body.stack.top.name body.source =
        .ok (before ++ q.token.token :: (behind ++ [ending])) ∧ ending.isEof = true ∧
      q.token.token.opened? = some name ∧ Unmatched name behind ∧
      (¬ q.Withholds name ∧ position = q.token.token.position ∨
        q.Withholds name ∧ position = ending.position)) ∧
      templates = body.stack.describe := by
  obtain ⟨p, -, refused⟩ | ⟨lines, events, last, grouped, run, open?⟩ := here.of_own rfl
  · -- What is kept for a parent call or a lambda is kept up to the end of the template.
    obtain ⟨isEof, rfl, rfl, withheld⟩ := refused.unclosed
    obtain ⟨stack, awaits, keeps⟩ := p.leaves collected
    refine ⟨?_, rfl⟩
    cases keeps with
    | normal normal _ =>
        obtain ⟨call, indent, mode, -⟩ | ⟨held, mode, -⟩ := withheld
        all_goals cases normal.symm.trans mode
    | @parent call indent inner outer q rest mode _ split tag _ _ _ _ =>
        obtain ⟨other, _, same, rfl⟩ | ⟨held, same, -⟩ := withheld
        all_goals cases mode.symm.trans same
        have opened : q.token.token.opened? = some call.parent := by
          rw [opened?, tag]
          rfl
        obtain ⟨before, behind, read, unmatched⟩ :=
          p.exists_unmatched collected isEof nested awaits (by simp [split]) opened
        exact ⟨q, before, behind, p.token.token, read, isEof, opened, unmatched,
          .inr ⟨.inl tag, rfl⟩⟩
    | @lambda held inner outer q mode _ split tag _ withholds _ =>
        obtain ⟨call, _, same, -⟩ | ⟨other, same, rfl⟩ := withheld
        all_goals cases mode.symm.trans same
        have opened : q.token.token.opened? = some held.name := by
          rw [opened?, tag]
          rfl
        obtain ⟨before, behind, read, unmatched⟩ :=
          p.exists_unmatched collected isEof nested awaits (by simp [split]) opened
        exact ⟨q, before, behind, p.token.token, read, isEof, opened, unmatched,
          .inr ⟨withholds, rfl⟩⟩
  · obtain ⟨p, isEof, normal, rfl⟩ := exists_point_at_end collected grouped run
    obtain ⟨stack, awaits, keeps⟩ := p.leaves collected
    cases keeps with
    | normal _ standing =>
        rw [checkClosed, normal] at open?
        generalize p.state.openTags = tags, p.state.scope = scope at standing open?
        cases standing with
        | none => cases open?
        | @some tag outer added stack q _ isAt adds =>
            cases open?
            have opened : q.token.token.opened? = some tag.name := by
              rw [opened?, isAt.kind]
              exact if_pos adds.isOpening
            obtain ⟨before, behind, read, unmatched⟩ :=
              p.exists_unmatched collected isEof nested awaits (List.mem_cons_self ..) opened
            exact ⟨⟨q, before, behind, p.token.token, read, isEof, opened, unmatched,
              .inl ⟨isAt.reads, isAt.position.symm⟩⟩, rfl⟩
    | parent mode _ _ _ _ _ _ _ => cases normal.symm.trans mode
    | lambda mode _ _ _ _ _ _ => cases normal.symm.trans mode

end

/-- A compile that ends with the error for something unclosed has come to a template with an opening
tag of that name that has no end tag there. The error is placed at the tag, except that it is placed
at the end of the template if what is behind the tag is kept for a parent call or a lambda. -/
theorem compileInto_unclosed {σ : Type} {sink : Sink σ} (sincere : sink.IsSincere) {schema : Schema}
    {library : Library} {options : Options} {template : Template} {st : σ}
    (failed : (compileInto sink schema library options template st).2 =
      some (.nesting (.unclosed name) position openNames templates)) :
    ∃ (path : List Entry) (room : Nat) (body : Body)
      (q : Point ⟨schema, library, options⟩ (nestedAt ⟨schema, library, options⟩ room) body)
      (before behind : List Token) (ending : Token),
      Reaches ⟨schema, library, options⟩ options.maxIncludeDepth (.root schema template) path room
        body ∧
      tokenize body.stack.top.name body.source =
        .ok (before ++ q.token.token :: (behind ++ [ending])) ∧ ending.isEof = true ∧
      q.token.token.opened? = some name ∧ Unmatched name behind ∧
      (¬ q.Withholds name ∧ position = q.token.token.position ∨
        q.Withholds name ∧ position = ending.position) ∧
      templates = body.stack.describe := by
  obtain ⟨path, room, body, reaches, here⟩ := failsHere_of_compileInto sincere failed
  have unblocked : (Body.root schema template).blocks.AreCollected := List.forall_mem_nil _
  have nested := reaches.areNested unblocked (List.forall_mem_nil _)
  obtain ⟨⟨q, before, behind, ending, read, isEof, opened, unmatched, placed⟩, stack⟩ :=
    here.unclosed_position (reaches.areCollected unblocked) nested
  exact ⟨path, room, body, q, before, behind, ending, reaches, read, isEof, opened, unmatched,
    placed, stack⟩

/-- A section that is not closed, in a parent with a block that the caller gives. -/
theorem compileInto_unclosed_in_parent :
    let library := Library.ofCatalog [("p", "{{#s}}{{$b}}x{{/b}}")]
    let template : Template := ⟨"main", "{{<p}}{{$b}}y{{/b}}{{/p}}"⟩
    let position : Position := ⟨"p", 1, 1, "{{#s}}{{$b}}x{{/b}}"⟩
    (compileInto Sink.asking .dynamic library .default template ()).2 =
        some (.nesting (.unclosed "s") position ["#s"] "parent p <- main") ∧
      ∃ (path : List Entry) (room : Nat) (body : Body)
        (q : Point ⟨.dynamic, library, .default⟩ (nestedAt ⟨.dynamic, library, .default⟩ room) body)
        (before behind : List Token) (ending : Token),
        Reaches ⟨.dynamic, library, .default⟩ 64 (.root .dynamic template) path room body ∧
        tokenize body.stack.top.name body.source =
          .ok (before ++ q.token.token :: (behind ++ [ending])) ∧ ending.isEof = true ∧
        q.token.token.opened? = some "s" ∧ Unmatched "s" behind ∧
        (¬ q.Withholds "s" ∧ position = q.token.token.position ∨
          q.Withholds "s" ∧ position = ending.position) ∧
        "parent p <- main" = body.stack.describe := by
  intro library template position
  have failed : (compileInto Sink.asking .dynamic library .default template ()).2 =
      some (.nesting (.unclosed "s") position ["#s"] "parent p <- main") := by decide +kernel
  exact ⟨failed, compileInto_unclosed Sink.isSincere_asking failed⟩

/-- A parent call that is not closed, and a section of a lambda: the error is placed at the end of
the template, and no tag of the name stands there. -/
theorem unclosed_at_end :
    let schema := (Schema.ofRoot (.struct "page")).withStruct "page" ⟨[], [("f", .raw)]⟩
    let call : Template := ⟨"main", "{{<p}}x"⟩
    let lambda : Template := ⟨"main", "a{{#f}}x"⟩
    ((compileInto Sink.asking .dynamic (.ofCatalog []) .default call ()).2 =
        some (.nesting (.unclosed "p") ⟨"main", 1, 8, call.source⟩ ["<p"] "main") ∧
      (tokenize call.name call.source).map (List.map fun token => (token.opened?, token.position)) =
        .ok [(some "p", ⟨"main", 1, 1, call.source⟩), (none, ⟨"main", 1, 7, call.source⟩),
          (none, ⟨"main", 1, 8, call.source⟩)]) ∧
    (compileInto Sink.asking schema (.ofCatalog []) .default lambda ()).2 =
        some (.nesting (.unclosed "f") ⟨"main", 1, 9, lambda.source⟩ ["#f"] "main") ∧
      (tokenize lambda.name lambda.source).map
          (List.map fun token => (token.opened?, token.position)) =
        .ok [(none, ⟨"main", 1, 1, lambda.source⟩), (some "f", ⟨"main", 1, 2, lambda.source⟩),
          (none, ⟨"main", 1, 8, lambda.source⟩), (none, ⟨"main", 1, 9, lambda.source⟩)] := by
  intro schema call lambda
  refine ⟨⟨?_, eq_ok_of_toOption ?_⟩, ?_, eq_ok_of_toOption ?_⟩
  all_goals decide +kernel

end Compile

end Stencil
