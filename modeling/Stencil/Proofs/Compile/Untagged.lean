import Stencil.Proofs.Compile.Boundaries

/-!
Tokens that are no tags. Main statement: where no tag is, every token is a group of its own, and it
is written as it stands.
-/

namespace Stencil

namespace Token

theorem isStandalone_of_untagged {token : Token} (untagged : token.tag? = none) :
    token.isStandalone = false := by
  obtain ⟨kind, position, raw⟩ := token
  cases kind <;> first | rfl | cases untagged

end Token

namespace LineClassifier

theorem group?_untagged {atLineStart : Bool} {tokens : List Token}
    (untagged : ∀ token ∈ tokens, token.tag? = none) : group? atLineStart tokens = none := by
  have structural : ∀ token ∈ tokens, token.isStandalone ≠ true := by
    intro token member standalone
    cases standalone.symm.trans (Token.isStandalone_of_untagged (untagged token member))
  by_contra decided
  obtain ⟨⟨group, next⟩, decided⟩ := Option.ne_none_iff_exists'.mp decided
  cases atLineStart with
  | false => cases decided
  | true =>
      obtain ⟨first, tag, more, rfl, standalone, -⟩ | ⟨line, more, rfl, -⟩ := group?_cases decided
      · exact structural tag (by simp) standalone
      · exact structural line.tag (by simp [StandaloneLine.tokens]) line.tag_isStandalone

theorem drain_untagged (atLineStart : Bool) {tokens : List Token}
    (untagged : ∀ token ∈ tokens, token.tag? = none) :
    drain atLineStart tokens = tokens.map single := by
  induction tokens generalizing atLineStart with
  | nil => simp [drain]
  | cons token tokens ih =>
      rw [drain_single (group?_untagged untagged), ih _ (List.forall_mem_cons.mp untagged).2,
        List.map_cons]

end LineClassifier

def LineToken.literals (t : LineToken) : List String :=
  if t.role = .normal then
    match t.token.kind with
    | .text text | .whitespace text => [text]
    | .special mark => [mark.text]
    | .newline ending => [ending.text]
    | _ => []
  else []

namespace Compile

variable {setting : Setting} {nested? : Option Nested} {body : Body} {s : State} {t : LineToken}

def literalEvents (texts : List String) : List Event := texts.map fun text => .call (.literal text)

theorem writeText_unindented (unindented : body.indent = "") (s : State) (text : String) :
    writeText body s text = (literalEvents [text], { s with atLineStart := false }) := by
  simp [writeText, indentLine, literalEvents, unindented]

theorem readPlain_untagged (setting : Setting) (nested? : Option Nested) (body : Body) (s : State)
    (untagged : t.token.tag? = none) :
    ∃ events next, readPlain setting nested? body s t = .ok (events, next) ∧
      next = { s with atLineStart := next.atLineStart, pendingIndent := next.pendingIndent } ∧
      (body.indent = "" → events = literalEvents t.literals) := by
  unfold readPlain LineToken.literals
  cases role : t.role with
  | ignore => exact ⟨_, _, rfl, by split <;> rfl, fun _ => rfl⟩
  | indent => exact ⟨_, _, rfl, by split <;> rfl, fun _ => rfl⟩
  | eof => exact ⟨_, _, rfl, rfl, fun _ => rfl⟩
  | normal =>
      cases kind : t.token.kind with
      | text text | whitespace text =>
          exact ⟨_, _, rfl, rfl, fun plain => congrArg Prod.fst (writeText_unindented plain s text)⟩
      | special mark =>
          exact ⟨_, _, rfl, rfl,
            fun plain => congrArg Prod.fst (writeText_unindented plain s mark.text)⟩
      | newline ending => exact ⟨_, _, rfl, rfl, fun _ => rfl⟩
      | comment _ | delimiters _ _ | eof => exact ⟨_, _, rfl, rfl, fun _ => rfl⟩
      | tag kind name => simp [Token.tag?, kind] at untagged

theorem readToken_normal {closing standalone : Bool} (normal : s.mode = .normal) :
    readToken setting nested? body closing standalone s t = readPlain setting nested? body s t := by
  rw [readToken, normal]

theorem runAll_untagged (setting : Setting) (nested? : Option Nested) {tokens : List LineToken}
    (untagged : ∀ t ∈ tokens, t.token.tag? = none) (unindented : body.indent = "")
    (normal : s.mode = .normal) :
    ∃ next, runAll (readToken setting nested? body false false) s tokens =
        .ok (literalEvents (tokens.flatMap LineToken.literals), next) ∧
      next = { s with atLineStart := next.atLineStart, pendingIndent := next.pendingIndent } := by
  induction tokens generalizing s with
  | nil => exact ⟨s, rfl, rfl⟩
  | cons t tokens ih =>
      obtain ⟨here, further⟩ := List.forall_mem_cons.mp untagged
      obtain ⟨events, middle, read, same, written⟩ := readPlain_untagged setting nested? body s here
      have still : middle.mode = .normal := by rw [same]; exact normal
      obtain ⟨last, run, kept⟩ := ih further still
      refine ⟨last, ?_, ?_⟩
      · rw [runAll, readToken_normal normal, read, ok_bind]
        simp only [run, ok_bind, pure_eq_ok, written unindented]
        rw [List.flatMap_cons, literalEvents, literalEvents, literalEvents, List.map_append]
      · rw [kept, same]

theorem plainTag_mode {kind : TagKind} {name : String} {position : Position}
    {result : List Event × State} (normal : s.mode = .normal) (other : kind ≠ .openSection)
    (own : kind ≠ .openParent)
    (done : plainTag setting nested? body s kind name position = .ok result) :
    result.2.mode = .normal := by
  unfold plainTag at done
  cases kind with
  | openSection => exact absurd rfl other
  | openParent => exact absurd rfl own
  | escaped | unescaped | openInverted =>
      obtain ⟨⟨found, names⟩, -, done⟩ := bind_eq_ok.mp done
      cases found <;> cases done <;> exact normal
  | close =>
      dsimp only [closeTag] at done
      split at done
      · cases done
      · split at done
        · cases done
        · cases done
          exact normal
  | inclusion =>
      rw [includeTemplate_state done]
      exact normal
  | openBlock =>
      cases done
      exact normal

theorem readToken_mode {closing standalone : Bool} {result : List Event × State}
    (normal : s.mode = .normal) (other : ∀ name, t.token.kind ≠ .tag .openSection name)
    (own : ∀ name, t.token.kind ≠ .tag .openParent name)
    (done : readToken setting nested? body closing standalone s t = .ok result) :
    result.2.mode = .normal := by
  rw [readToken_normal normal] at done
  cases tag : t.token.tag? with
  | none =>
      obtain ⟨events, next, read, same, -⟩ := readPlain_untagged setting nested? body s tag
      cases read.symm.trans done
      rw [same]
      exact normal
  | some found =>
      obtain ⟨kind, name⟩ := found
      have tagged : t.token.kind = .tag kind name := Token.kind_of_tag? tag
      unfold readPlain at done
      rw [tagged] at done other own
      cases role : t.role with
      | normal =>
          rw [role] at done
          exact plainTag_mode normal (by rintro rfl; exact other name rfl)
            (by rintro rfl; exact own name rfl) done
      | ignore | indent | eof =>
          rw [role] at done
          cases done
          first | exact normal | (split <;> exact normal)

theorem runAll_readGroup_normal {groups : List LineGroup} (normal : s.mode = .normal)
    (other : ∀ t ∈ groups.flatten, ∀ name, t.token.kind ≠ .tag .openSection name)
    (own : ∀ t ∈ groups.flatten, ∀ name, t.token.kind ≠ .tag .openParent name) :
    runAll (readGroup setting nested? body) s groups =
      runAll (readToken setting nested? body false false) s groups.flatten := by
  refine runAll_readGroup_of (P := fun s => s.mode = .normal) groups ?_ ?_ normal
  · intro s normal
    rw [normal]
    rfl
  · intro t member s result normal done
    exact readToken_mode normal (other t member) (own t member) done

theorem compileWith_flat (setting : Setting) (nested? : Option Nested) (body : Body)
    {tokens : List Token} (noBlocks : body.blocks = [])
    (read : tokenize body.stack.top.name body.source = .ok tokens)
    (untagged : ∀ token ∈ tokens, token.tag? = none) :
    compileWith setting nested? body = do
      let (events, s) ← runAll (readToken setting nested? body false false) (.start body)
        (tokens.map (LineToken.of .normal))
      checkClosed body s
      return (events, s.atLineStart) := by
  have flat : (LineClassifier.groupsOf tokens).flatten = tokens.map (LineToken.of .normal) := by
    rw [LineClassifier.groupsOf_eq_drain (endsOnce_of_tokenize read),
      LineClassifier.drain_untagged true untagged, LineClassifier.flatten_map_single]
  have apart (kind : TagKind) :
      ∀ t ∈ (LineClassifier.groupsOf tokens).flatten, ∀ name, t.token.kind ≠ .tag kind name := by
    rw [flat]
    refine List.forall_mem_map.mpr ?_
    intro token member name tag
    have none := untagged token member
    rw [Token.tag?, show token.kind = .tag kind name from tag] at none
    cases none
  rw [compileWith, groups_unreplaced noBlocks read, ok_bind,
    runAll_readGroup_normal rfl (apart _) (apart _), flat]

theorem compileWith_untagged (setting : Setting) (nested? : Option Nested) (body : Body)
    {tokens : List Token} (noBlocks : body.blocks = []) (unindented : body.indent = "")
    (read : tokenize body.stack.top.name body.source = .ok tokens)
    (untagged : ∀ token ∈ tokens, token.tag? = none) :
    ∃ atLineStart, compileWith setting nested? body =
      .ok (literalEvents ((tokens.map (LineToken.of .normal)).flatMap LineToken.literals),
        atLineStart) := by
  have plain : ∀ t ∈ tokens.map (LineToken.of .normal), t.token.tag? = none :=
    List.forall_mem_map.mpr untagged
  obtain ⟨last, run, same⟩ := runAll_untagged setting nested? plain unindented
    (rfl : (State.start body).mode = .normal)
  have closed : checkClosed body last = .ok () := by
    rw [same]
    rfl
  refine ⟨last.atLineStart, ?_⟩
  rw [compileWith_flat setting nested? body noBlocks read untagged, run]
  simp only [ok_bind, closed, pure_eq_ok]

end Compile

end Stencil
