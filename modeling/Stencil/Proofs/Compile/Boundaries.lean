import Mathlib.Data.List.Chain
import Stencil.Proofs.Compile.Requests
import Stencil.Proofs.Token.Joined

/-!
What whole lines leave behind. Main statement: behind lines that leave nothing open, a template goes
on as it began, but for the names that have been used.
-/

namespace Stencil

structure Classified (tokens : List LineToken) : Prop where
  indents : tokens.IsChain fun t next => t.role = .indent → next.tag?.isSome = true
  newlines : ∀ t ∈ tokens, t.token.isNewline = true → t.role = .normal ∨ t.role = .ignore

namespace Classified

variable {first second : List LineToken} {t : LineToken}

theorem cons (here : ∀ next ∈ first.head?, t.role = .indent → next.tag?.isSome = true)
    (newline : t.token.isNewline = true → t.role = .normal ∨ t.role = .ignore)
    (further : Classified first) : Classified (t :: first) :=
  ⟨List.isChain_cons.mpr ⟨here, further.indents⟩,
    List.forall_mem_cons.mpr ⟨newline, further.newlines⟩⟩

theorem append (before : Classified first) (after : Classified second)
    (between : ∀ t ∈ first.getLast?, t.role ≠ .indent) : Classified (first ++ second) := by
  constructor
  · refine before.indents.append after.indents ?_
    intro t last next _ indent
    exact absurd indent (between t last)
  · exact List.forall_mem_append.mpr ⟨before.newlines, after.newlines⟩

theorem of_append (classified : Classified (first ++ second)) : Classified first :=
  ⟨classified.indents.left_of_append,
    fun t member => classified.newlines t (List.mem_append_left _ member)⟩

theorem flatten {groups : List LineGroup}
    (each : ∀ group ∈ groups, Classified group ∧ ∀ t ∈ group.getLast?, t.role ≠ .indent) :
    Classified groups.flatten := by
  induction groups with
  | nil => exact ⟨.nil, List.forall_mem_nil _⟩
  | cons group groups ih =>
      obtain ⟨⟨here, ends⟩, further⟩ := List.forall_mem_cons.mp each
      rw [List.flatten_cons]
      exact here.append (ih further) ends

end Classified

namespace LineToken

theorem role_of_newline {role : Role} {token : Token} (newline : token.isNewline = true) :
    (of role token).role = role := by
  have inside : token.isEof = false := by
    obtain ⟨kind, position, raw⟩ := token
    cases kind <;> first | rfl | cases newline
  simp [of, inside]

theorem classified {role : Role} (written : role = .normal ∨ role = .ignore) (tokens : List Token) :
    Classified (tokens.map (of role)) := by
  have other : role ≠ .indent := by
    rintro rfl
    cases written <;> contradiction
  induction tokens with
  | nil => exact ⟨.nil, List.forall_mem_nil _⟩
  | cons token tokens ih =>
      refine .cons ?_ ?_ ih
      · intro _ _ indent
        exact absurd indent (role_ne other (by decide) token)
      · intro newline
        have same : (of role token).role = role := role_of_newline newline
        rwa [same]

end LineToken

namespace LineClassifier

variable {atLineStart next : Bool} {tokens : List Token} {group : LineGroup}

theorem tag?_of_isStandalone {tag : Token} (standalone : tag.isStandalone = true) :
    (LineToken.of .normal tag).tag?.isSome = true := by
  unfold LineToken.tag?
  rw [if_pos (LineToken.role_of_normal standalone)]
  obtain ⟨kind, position, raw⟩ := tag
  cases kind <;> first | rfl | cases standalone

theorem Formed.classified (formed : Formed group) : Classified group := by
  cases formed with
  | single token => exact LineToken.classified (.inl rfl) [token]
  | @pair first tag _ => exact LineToken.classified (.inl rfl) [first, tag]
  | line line =>
      have rest : Classified (.of .normal line.tag ::
          (line.after.toList ++ [line.ending]).map (LineToken.of .ignore)) := by
        refine .cons ?_ ?_ (LineToken.classified (.inr rfl) _)
        · intro _ _ indent
          exact absurd indent (LineToken.role_ne (by decide) (by decide) line.tag)
        · intro newline
          exact .inl (LineToken.role_of_newline newline)
      unfold StandaloneLine.group
      cases before : line.before with
      | none => exact rest
      | some blank =>
          have whitespace : blank.isWhitespace = true := line.before_isWhitespace blank before
          refine .cons ?_ ?_ rest
          · intro next first _
            obtain rfl := Option.some.inj first
            exact tag?_of_isStandalone line.tag_isStandalone
          · intro newline
            have inside := Token.endsLine_of_isWhitespace whitespace
            rw [Token.endsLine, Bool.or_eq_false_iff] at inside
            cases inside.1.symm.trans newline

theorem classified_drain (atLineStart : Bool) (tokens : List Token) :
    Classified (drain atLineStart tokens).flatten := by
  refine .flatten fun group member => ?_
  have formed := formed_of_mem_drain member
  exact ⟨formed.classified, formed.role_getLast⟩

theorem exists_flatten_drain (atLineStart : Bool) (front : List Token) (token : Token) :
    ∃ others t, (drain atLineStart (front ++ [token])).flatten = others ++ [t] ∧
      t.token = token := by
  have whole := map_token_drain atLineStart (front ++ [token])
  obtain none | ⟨others, t, same⟩ :=
    (drain atLineStart (front ++ [token])).flatten.eq_nil_or_concat'
  · simp [none] at whole
  · rw [same, List.map_append, List.map_singleton] at whole
    exact ⟨others, t, same, List.singleton_inj.mp (List.append_inj' whole rfl).2⟩

end LineClassifier

namespace Compile

variable {setting : Setting} {nested? : Option Nested} {body : Body} {s next : State}
  {t : LineToken} {events : List Event}

/-- What has been read last may leave indentation pending, and ends the output line if it is a line
ending. -/
structure Settled (s : State) (tokens : List LineToken) : Prop where
  pending : s.pendingIndent ≠ none → s.mode = .normal ∧ ∃ t ∈ tokens.getLast?, t.role = .indent
  ended : s.mode = .normal → ∀ t ∈ tokens.getLast?, t.token.isNewline = true → s.atLineStart = true

theorem Settled.start (body : Body) : Settled (.start body) [] :=
  ⟨fun pending => absurd rfl pending, fun _ _ none => by cases none⟩

theorem includeTemplate_pendingIndent {kind : FrameKind} {name : String} {position : Position}
    {indent : String} {blocks : GivenBlocks}
    (done : includeTemplate setting nested? body s kind name position indent blocks =
      .ok (events, next)) : next.pendingIndent = s.pendingIndent := by
  have after : next = { s with atLineStart := next.atLineStart } := includeTemplate_state done
  rw [after]

theorem closeTag_pendingIndent {name : String} {position : Position}
    (done : closeTag body s name position = .ok (events, next)) :
    next.pendingIndent = s.pendingIndent := by
  unfold closeTag at done
  split at done
  · cases done
  · split at done
    · cases done
    · cases done
      rfl

theorem plainTag_pendingIndent {kind : TagKind} {name : String} {position : Position}
    (done : plainTag setting nested? body s kind name position = .ok (events, next)) :
    next.pendingIndent = none := by
  unfold plainTag at done
  cases kind with
  | escaped | unescaped | openSection | openInverted =>
      obtain ⟨⟨found, names⟩, -, done⟩ := bind_eq_ok.mp done
      cases found <;> cases done <;> rfl
  | close => exact closeTag_pendingIndent done
  | inclusion => exact includeTemplate_pendingIndent done
  | openParent | openBlock =>
      cases done
      rfl

theorem readPlain_pendingIndent (plain : t.tag? = none) (role : t.role ≠ .indent)
    (done : readPlain setting nested? body s t = .ok (events, next)) :
    next.pendingIndent = s.pendingIndent := by
  unfold readPlain at done
  cases found : t.role with
  | indent => exact absurd found role
  | eof =>
      rw [found] at done
      cases done
      rfl
  | ignore =>
      rw [found] at done
      cases done
      split <;> rfl
  | normal =>
      rw [found] at done
      cases kind : t.token.kind with
      | tag tagKind name => simp [LineToken.tag?, Token.tag?, found, kind] at plain
      | text _ | whitespace _ | special _ | newline _ | comment _ | delimiters _ _ | eof =>
          rw [kind] at done
          cases done
          rfl

theorem push_closes {call last : ParentCall} {token : Token}
    (done : call.push token = .ok (last, true)) : ∃ name, token.kind = .tag .close name := by
  unfold ParentCall.push at done
  split at done
  · next name kind => exact ⟨name, kind⟩
  · split at done
    · obtain ⟨opened, -, same⟩ := map_eq_ok.mp done
      cases same
    · cases done
  · cases done
  · cases done

theorem callLambda_pendingIndent {held : LambdaSection} {standalone : Bool}
    (done : callLambda setting nested? body s held standalone = .ok (events, next)) :
    next.pendingIndent = s.pendingIndent := by
  cases nested? with
  | none => cases done
  | some nested =>
      rw [callLambda_eq] at done
      cases done
      unfold lambdaIndent
      split <;> rfl

/-- What a token does that is read up to an end tag: it leaves pending what was, and only an end tag
ends the reading. -/
structure Held (s : State) (t : LineToken) (next : State) : Prop where
  pendingIndent : next.pendingIndent = s.pendingIndent
  closes : next.mode = .normal → ∃ name, t.token.kind = .tag .close name

theorem readLambda_held {held : LambdaSection} {closing standalone : Bool}
    (mode : s.mode = .lambda held)
    (done : readLambda setting nested? body s held t closing standalone = .ok (events, next)) :
    Held s t next := by
  have skip : Held s t s := ⟨rfl, fun normal => by cases mode.symm.trans normal⟩
  have called {name : String} (kind : t.token.kind = .tag .close name)
      (done : callLambda setting nested? body { s with mode := .normal } held standalone =
        .ok (events, next)) : Held s t next := by
    have unchanged := callLambda_pendingIndent done
    exact ⟨unchanged, fun _ => ⟨name, kind⟩⟩
  -- Every branch passes over the token, keeps its text, or ends the section with it.
  unfold readLambda at done
  dsimp only at done
  split at done
  · cases done
    exact skip
  · split at done
    · next name kind =>
        split at done
        · cases done
          exact ⟨rfl, fun normal => by cases normal⟩
        · split at done
          · cases done
          · exact called kind done
    all_goals
      repeat' split at done
      all_goals first
        | cases done; done
        | cases done; exact skip
        | cases done; exact ⟨rfl, fun normal => by cases normal⟩

theorem readToken_held {closing standalone : Bool} (outside : s.mode ≠ .normal)
    (done : readToken setting nested? body closing standalone s t = .ok (events, next)) :
    Held s t next := by
  unfold readToken at done
  split at done
  · next normal => exact absurd normal outside
  · next call indent mode =>
      unfold readParent at done
      split at done
      · cases done
      · cases done
        exact ⟨rfl, fun normal => by cases normal⟩
      · next last taken =>
          have unchanged := includeTemplate_pendingIndent done
          exact ⟨unchanged, fun _ => push_closes taken⟩
  · next within mode => exact readLambda_held mode done

variable {tokens : List LineToken}

theorem readPlain_settled (settled : Settled s tokens) (normal : s.mode = .normal)
    (classified : Classified (tokens ++ [t]))
    (done : readPlain setting nested? body s t = .ok (events, next)) :
    Settled next (tokens ++ [t]) := by
  have last : (tokens ++ [t]).getLast? = some t := List.getLast?_concat ..
  constructor
  · intro pending
    cases tag : t.tag? with
    | some found =>
        obtain ⟨kind, name⟩ := found
        obtain ⟨role, kind⟩ := of_tag? tag
        simp only [readPlain, role, kind] at done
        exact absurd (plainTag_pendingIndent done) pending
    | none =>
        have idle : s.pendingIndent = none := by
          by_contra pending
          obtain ⟨-, before, member, role⟩ := settled.pending pending
          obtain ⟨-, -, between⟩ := List.isChain_append.mp classified.indents
          have tagged := between before member t rfl role
          rw [tag] at tagged
          cases tagged
        by_cases role : t.role = .indent
        · refine ⟨?_, t, last, role⟩
          simp only [readPlain, role] at done
          cases done
          split <;> exact normal
        · exact absurd ((readPlain_pendingIndent tag role done).trans idle) pending
  · intro _ found member newline
    obtain rfl := Option.some.inj (last.symm.trans member)
    obtain ⟨ending, kind⟩ := Token.isNewline_iff.mp newline
    obtain role | role := classified.newlines t (List.mem_append_right _ List.mem_cons_self) newline
    · simp only [readPlain, role, kind] at done
      cases done
      rfl
    · simp only [readPlain, role, newline, if_true] at done
      cases done
      rfl

theorem readToken_settled {closing standalone : Bool} (settled : Settled s tokens)
    (classified : Classified (tokens ++ [t]))
    (done : readToken setting nested? body closing standalone s t = .ok (events, next)) :
    Settled next (tokens ++ [t]) := by
  by_cases normal : s.mode = .normal
  · simp only [readToken, normal] at done
    exact readPlain_settled settled normal classified done
  · have held := readToken_held normal done
    constructor
    · intro pending
      rw [held.pendingIndent] at pending
      exact absurd (settled.pending pending).1 normal
    · intro after found member newline
      obtain rfl := Option.some.inj ((List.getLast?_concat ..).symm.trans member)
      obtain ⟨name, kind⟩ := held.closes after
      simp [Token.isNewline, kind] at newline

theorem runAll_settled {α : Type} {step : State → α → Outcome} (read : α → List LineToken)
    (each : ∀ {s next : State} {item : α} {tokens : List LineToken} {events : List Event},
      Settled s tokens → Classified (tokens ++ read item) → step s item = .ok (events, next) →
      Settled next (tokens ++ read item))
    {items : List α} (settled : Settled s tokens)
    (classified : Classified (tokens ++ items.flatMap read))
    (done : runAll step s items = .ok (events, next)) :
    Settled next (tokens ++ items.flatMap read) := by
  induction items generalizing s tokens events with
  | nil =>
      cases done
      rwa [List.flatMap_nil, List.append_nil]
  | cons item rest ih =>
      obtain ⟨⟨first, middle⟩, head, done⟩ := bind_eq_ok.mp done
      obtain ⟨⟨later, last⟩, tail, done⟩ := bind_eq_ok.mp done
      cases done
      rw [List.flatMap_cons, ← List.append_assoc] at classified ⊢
      exact ih (each settled classified.of_append head) classified tail

theorem Settled.endGroup (settled : Settled s tokens) : Settled (endGroup s) tokens := by
  obtain ⟨pending, ended⟩ := settled
  unfold Compile.endGroup
  split
  · next held mode =>
      constructor
      · intro some
        cases mode.symm.trans (pending some).1
      · intro normal
        cases normal
  · exact ⟨pending, ended⟩

theorem readGroup_settled {group : LineGroup} (settled : Settled s tokens)
    (classified : Classified (tokens ++ group))
    (done : readGroup setting nested? body s group = .ok (events, next)) :
    Settled next (tokens ++ group) := by
  obtain ⟨⟨written, after⟩, run, done⟩ := bind_eq_ok.mp done
  cases done
  have read := runAll_settled (fun t => [t]) readToken_settled settled
    (by simpa using classified) run
  simpa using read.endGroup

theorem Settled.of_newline (settled : Settled s (tokens ++ [t]))
    (classified : Classified (tokens ++ [t])) (ends : t.token.isNewline = true)
    (normal : s.mode = .normal) : s.pendingIndent = none ∧ s.atLineStart = true := by
  have last : (tokens ++ [t]).getLast? = some t := List.getLast?_concat ..
  refine ⟨?_, settled.ended normal t last ends⟩
  by_contra pending
  obtain ⟨-, found, final, indent⟩ := settled.pending pending
  obtain rfl := Option.some.inj (last.symm.trans final)
  obtain role | role := classified.newlines t (List.mem_append_right _ List.mem_cons_self) ends
  · cases indent.symm.trans role
  · cases indent.symm.trans role

theorem readGroups_settled {lines : List LineGroup} {front : List Token} {newline : Token}
    {last : State} (starts : body.atLineStart = true)
    (drained : lines = LineClassifier.drain true (front ++ [newline]))
    (ends : newline.isNewline = true)
    (nestedDerives : ∀ nested ∈ nested?, NestedDerives setting nested)
    (run : runAll (readGroup setting nested? body) (.start body) lines = .ok (events, last))
    (accepted : Program.Accepts events) (normal : last.mode = .normal)
    (closed : last.openTags = []) : last = { State.start body with names := last.names } := by
  have scope : last.scope = body.scope := by
    obtain ⟨before, taken, -, -, draft⟩ := runAll_progress (fun g => g)
      (fun progress step accepted => readGroup_progress progress nestedDerives step accepted)
      (.start setting body) run accepted
    rw [closed] at draft
    exact draft.scope_eq
  have classified : Classified (lines.flatMap fun g => g) := by
    rw [drained, List.flatMap_id']
    exact LineClassifier.classified_drain _ _
  have settled : Settled last (lines.flatMap fun g => g) :=
    runAll_settled (fun g => g) readGroup_settled (.start body) classified run
  rw [List.flatMap_id', drained] at settled classified
  obtain ⟨others, t, same, rfl⟩ := LineClassifier.exists_flatten_drain true front newline
  rw [same] at settled classified
  obtain ⟨unpending, atLineStart⟩ := settled.of_newline classified ends normal
  obtain ⟨_, names, _, _, _, _⟩ := last
  obtain rfl := scope
  obtain rfl := unpending
  obtain rfl := atLineStart
  obtain rfl := normal
  obtain rfl := closed
  rw [State.start, starts]

theorem readGroup_eof {ending : Token} (isEof : ending.isEof = true)
    (done : readGroup setting nested? body s (LineClassifier.single ending) = .ok (events, next))
    (normal : next.mode = .normal) : events = [] ∧ next = s := by
  have kind : (LineToken.of .normal ending).token.kind = .eof := Token.isEof_iff.mp isEof
  obtain ⟨⟨written, after⟩, run, done⟩ := bind_eq_ok.mp done
  cases done
  rw [LineClassifier.single, runAll_singleton] at run
  have outside : after.mode = .normal := by
    unfold endGroup at normal
    split at normal
    · cases normal
    · exact normal
  have before : s.mode = .normal := by
    by_contra held
    obtain ⟨name, closes⟩ := (readToken_held held run).closes outside
    cases kind.symm.trans closes
  simp only [readToken, before, readPlain_eof kind] at run
  cases run
  refine ⟨rfl, ?_⟩
  unfold endGroup
  rw [before]

theorem compileWith_lines {front : List Token} {newline ending : Token} {atLineStart : Bool}
    (noBlocks : body.blocks = []) (starts : body.atLineStart = true)
    (read : tokenize body.stack.top.name body.source = .ok (front ++ [newline] ++ [ending]))
    (ends : newline.isNewline = true) (isEof : ending.isEof = true)
    (nestedDerives : ∀ nested ∈ nested?, NestedDerives setting nested)
    (done : compileWith setting nested? body = .ok (events, atLineStart))
    (accepted : Program.Accepts events) :
    ∃ names, runAll (readGroup setting nested? body) (.start body)
      (LineClassifier.drain true (front ++ [newline])) =
        .ok (events, { State.start body with names }) := by
  obtain ⟨lines, grouped, done⟩ := bind_eq_ok.mp done
  obtain ⟨⟨written, after⟩, run, done⟩ := bind_eq_ok.mp done
  obtain ⟨⟨⟩, closed, done⟩ := bind_eq_ok.mp done
  cases done
  obtain ⟨normal, openTags⟩ := checkClosed_iff.mp closed
  have whole : LineClassifier.groupsOf (front ++ [newline] ++ [ending]) =
      LineClassifier.drain true (front ++ [newline]) ++ [LineClassifier.single ending] := by
    rw [LineClassifier.groupsOf_eq_drain (endsOnce_of_tokenize read),
      LineClassifier.drain_append (by simpa using ends) (by simp), LineClassifier.drain]
  rw [groups_unreplaced noBlocks read, whole, Except.ok.injEq] at grouped
  subst grouped
  rw [runAll_append] at run
  obtain ⟨⟨calls, last⟩, first, run⟩ := bind_eq_ok.mp run
  obtain ⟨⟨more, final⟩, rest, same⟩ := bind_eq_ok.mp run
  cases same
  rw [runAll_singleton] at rest
  obtain ⟨rfl, rfl⟩ := readGroup_eof isEof rest normal
  rw [List.append_nil] at accepted ⊢
  refine ⟨after.names, ?_⟩
  rw [← readGroups_settled starts rfl ends nestedDerives first accepted normal openTags]
  exact first

end Compile

end Stencil
