import Stencil.Proofs.Compile.Derivation
import Stencil.Proofs.Scope.Lookup

/-!
What a token can do while a template is compiled, and what it makes of a whole compile. Main
statement: a compile that a program accepts is a derivation for the classified tokens.
-/

namespace Stencil.Compile

variable {setting : Setting} {nested? : Option Nested} {body : Body} {s next : State}
  {t : LineToken} {events more : List Event}

def NestedDerives (setting : Setting) (nested : Nested) : Prop :=
  ∀ body events atLineStart, nested body = .ok (events, atLineStart) → Program.Accepts events →
    ∃ lines last, groups body = .ok lines ∧
      Adds setting.schema body.indent body.scope body.names lines.flatten events last

def Waits (schema : Schema) (s : State) (taken : List LineToken) : Prop :=
  match s.mode with
  | .normal => taken = []
  | .parent _ _ => ∃ t rest name, taken = t :: rest ∧ t.tag? = some (.openParent, name)
  | .lambda held => ∃ t rest, taken = t :: rest ∧ t.tag? = some (.openSection, held.name) ∧
      s.scope.meaning schema held.name .openSection s.names = .ok (.lambda held.decl, s.names)

/-- What a token in normal mode can do: add something where it stands, open a construct, close the
innermost one, or begin what is read up to an end tag. -/
inductive Advances (schema : Schema) (indent : String) (s : State) (t : LineToken) :
    List Event → State → Prop where
  | adds {events : List Event} {next : State} :
      Adds schema indent s.scope s.names [t] events next.names → next.scope = s.scope →
      next.openTags = s.openTags → next.mode = .normal → Advances schema indent s t events next
  | opens {tag : OpenTag} {enter : List Event} {next : State} :
      Opens schema s.scope s.names t tag enter next.scope → next.names = tag.names →
      next.openTags = tag :: s.openTags → next.mode = .normal →
      Advances schema indent s t enter next
  | closes {tag : OpenTag} {next : State} : t.tag? = some (.close, tag.name) →
      s.openTags = tag :: next.openTags → next.scope = tag.scope → next.names = tag.names →
      next.mode = .normal → Advances schema indent s t tag.leave next
  | waits {next : State} : next.scope = s.scope → next.names = s.names →
      next.openTags = s.openTags → Waits schema next [t] → Advances schema indent s t [] next

theorem Advances.of_unindented {schema : Schema} {indent : String}
    (advances : Advances schema indent { s with pendingIndent := none } t events next) :
    Advances schema indent s t events next := by
  cases advances with
  | adds adds scope openTags mode => exact .adds adds scope openTags mode
  | opens opens names openTags mode => exact .opens opens names openTags mode
  | closes closing openTags scope names mode => exact .closes closing openTags scope names mode
  | waits scope names openTags waits => exact .waits scope names openTags waits

theorem silent_adds {schema : Schema} {indent : String} {scope : Scope} {names : FreshNames}
    (plain : t.tag? = none) (empty : t.text = "") : Adds schema indent scope names [t] [] names :=
  ⟨[], .silent plain empty .nil, .nil⟩

theorem text_adds {schema : Schema} {indent : String} {scope : Scope} {names : FreshNames}
    (plain : t.tag? = none) : Adds schema indent scope names [t] [.call (.literal t.text)] names :=
  ⟨[.literal t.text], .text plain .nil, .one_literal t.text⟩

theorem Advances.silent {schema : Schema} {indent : String} (plain : t.tag? = none)
    (empty : t.text = "") (normal : s.mode = .normal)
    (same : next =
      { s with atLineStart := next.atLineStart, pendingIndent := next.pendingIndent }) :
    Advances schema indent s t [] next := by
  rw [same]
  exact .adds (silent_adds plain empty) rfl rfl normal

theorem indentLine_adds (schema : Schema) (scope : Scope) (names : FreshNames) (body : Body)
    (s : State) : Adds schema body.indent scope names [] (indentLine body s).1 names := by
  unfold indentLine
  dsimp only
  split
  · next due =>
      have filled : body.indent.isEmpty = false := by
        simpa using (Bool.and_eq_true_iff.mp due).2
      exact ⟨[.literal body.indent], .indent filled .nil, .one_literal body.indent⟩
  · exact .nil

theorem meaning_ok {name : String} {purpose : NameUse} {position : Position}
    {result : Meaning × FreshNames}
    (done : meaning setting body s name purpose position = .ok result) :
    s.scope.meaning setting.schema name purpose s.names = .ok result := by
  unfold meaning at done
  cases outcome : s.scope.meaning setting.schema name purpose s.names with
  | error problem => simp [outcome, Except.mapError] at done
  | ok found => simpa [outcome, Except.mapError] using done

theorem writeText_advances (plain : t.tag? = none) (normal : s.mode = .normal) :
    Advances setting.schema body.indent s t (writeText body s t.text).1
      (writeText body s t.text).2 := by
  refine .adds ?_ rfl rfl normal
  exact (indentLine_adds setting.schema s.scope s.names body s).append (text_adds plain)

theorem variableTag_advances {kind : TagKind} {name : String} {purpose : NameUse}
    {escaping : Escaping} {position : Position} (tag : t.tag? = some (kind, name))
    (writing : kind.writing? = some (purpose, escaping)) (normal : s.mode = .normal)
    (done : variableTag setting body s name purpose escaping position = .ok (events, next)) :
    Advances setting.schema body.indent s t events next := by
  obtain ⟨⟨result, names⟩, found, done⟩ := bind_eq_ok.mp done
  have means := meaning_ok found
  have written := TagKind.purpose_of_writing? writing
  obtain ⟨value, -, -, rfl, rfl⟩ := Scope.meaning_variable written means
  simp only [pure_eq_ok, Except.ok.injEq, Prod.mk.injEq] at done
  obtain ⟨rfl, rfl⟩ := done
  refine .adds ?_ rfl rfl normal
  refine (indentLine_adds setting.schema s.scope s.names body s).append ?_
  exact ⟨[.value value.expr escaping], .value tag writing means .nil, .value _ _ .nil⟩

theorem sectionTag_advances {name : String} {position : Position}
    (tag : t.tag? = some (.openSection, name)) (normal : s.mode = .normal)
    (done : sectionTag setting body s name position = .ok (events, next)) :
    Advances setting.schema body.indent s t events next := by
  obtain ⟨⟨result, names⟩, found, done⟩ := bind_eq_ok.mp done
  have means := meaning_ok found
  rcases Scope.meaning_openSection means with
    ⟨value, guards, inside, -, -, rfl⟩ | ⟨decl, -, rfl, rfl⟩
  · simp only [pure_eq_ok, Except.ok.injEq, Prod.mk.injEq] at done
    obtain ⟨rfl, rfl⟩ := done
    exact .opens (.openSection tag means) rfl rfl normal
  · simp only [pure_eq_ok, Except.ok.injEq, Prod.mk.injEq] at done
    obtain ⟨rfl, rfl⟩ := done
    exact .waits rfl rfl rfl ⟨t, [], rfl, tag, means⟩

theorem invertedTag_advances {name : String} {position : Position}
    (tag : t.tag? = some (.openInverted, name)) (normal : s.mode = .normal)
    (done : invertedTag setting body s name position = .ok (events, next)) :
    Advances setting.schema body.indent s t events next := by
  obtain ⟨⟨result, names⟩, found, done⟩ := bind_eq_ok.mp done
  have means := meaning_ok found
  obtain ⟨value, guard, -, -, rfl⟩ := Scope.meaning_openInverted means
  simp only [pure_eq_ok, Except.ok.injEq, Prod.mk.injEq] at done
  obtain ⟨rfl, rfl⟩ := done
  exact .opens (.openInverted tag means) rfl rfl normal

theorem closeTag_advances {name : String} {position : Position}
    (tag : t.tag? = some (.close, name)) (normal : s.mode = .normal)
    (done : closeTag body s name position = .ok (events, next)) :
    Advances setting.schema body.indent s t events next := by
  unfold closeTag at done
  split at done
  · simp at done
  · next innermost outer around =>
      split at done
      · simp at done
      · next same =>
          simp only [ne_eq, Decidable.not_not] at same
          simp only [Except.ok.injEq, Prod.mk.injEq] at done
          obtain ⟨rfl, rfl⟩ := done
          exact .closes (same ▸ tag) around rfl rfl normal

theorem includeTemplate_adds {kind : TagKind} {tagName : String} (taken : List LineToken)
    {frame : FrameKind} {name : String} {position : Position} {indent : String}
    {blocks : GivenBlocks} (tag : t.tag? = some (kind, tagName)) (indented : kind.isIndented = true)
    (nestedDerives : ∀ nested ∈ nested?, NestedDerives setting nested)
    (done : includeTemplate setting nested? body s frame name position indent blocks =
      .ok (events, next)) (accepted : Program.Accepts events) :
    Adds setting.schema body.indent s.scope s.names (t :: taken) events s.names ∧
      next = { s with atLineStart := next.atLineStart } := by
  unfold includeTemplate at done
  cases nested? with
  | none => simp at done
  | some nested =>
      obtain ⟨template, -, done⟩ := bind_eq_ok.mp done
      split at done
      · simp at done
      · obtain ⟨⟨inner, atLineStart⟩, compiled, done⟩ := bind_eq_ok.mp done
        simp only [pure_eq_ok, Except.ok.injEq, Prod.mk.injEq] at done
        obtain ⟨rfl, rfl⟩ := done
        have rest := (Program.accepts_of_cons accepted).2
        have innerAccepted : Program.Accepts inner := (Program.accepts_of_append rest).1
        obtain ⟨lines, last, -, instructions, derives, spells⟩ :=
          nestedDerives nested rfl _ _ _ compiled innerAccepted
        refine ⟨⟨[.inclusion name instructions], ?_, Spells.enclose (.inclusion name) spells⟩, rfl⟩
        have whole : Derives setting.schema body.indent s.scope s.names (t :: (taken ++ []))
            [.inclusion name instructions] s.names := .inclusion tag indented derives .nil
        simpa only [List.append_nil] using whole

theorem lambdaIndent_adds (schema : Schema) (scope : Scope) (names : FreshNames) (body : Body)
    (s : State) (owed : Bool) :
    Adds schema body.indent scope names []
      (if owed then (([] : List Event), s) else indentLine body s).1 names := by
  cases owed with
  | true => exact .nil
  | false => exact indentLine_adds schema scope names body s

theorem lambdaIndent_state (body : Body) (s : State) (owed : Bool) :
    (if owed then (([] : List Event), s) else indentLine body s).2 =
      { s with
        atLineStart :=
          (if owed then (([] : List Event), s) else indentLine body s).2.atLineStart } := by
  cases owed <;> rfl

theorem rawLambda_adds {schema : Schema} {indent : String} {scope : Scope} {names : FreshNames}
    (taken : List LineToken) {call : LambdaCall} {decl : LambdaDecl}
    {template : Except CompileError (List Event)} (tag : t.tag? = some (.openSection, call.name))
    (means : scope.meaning schema call.name .openSection names = .ok (.lambda decl, names))
    (returns : decl.returns = .raw) (kind : call.kind = .raw)
    (current : call.current = scope.currentExpr) :
    Adds schema indent scope names (t :: taken) [.lambda call template] names := by
  refine ⟨[.lambda call none], ?_, .rawLambda template kind .nil⟩
  have whole : Derives schema indent scope names (t :: (taken ++ [])) [.lambda call none] names :=
    .rawLambda tag means returns kind current .nil
  simpa only [List.append_nil] using whole

theorem modelLambda_adds {schema : Schema} {indent : String} {scope : Scope}
    {names last : FreshNames} (taken : List LineToken) {tokens : List LineToken} {call : LambdaCall}
    {decl : LambdaDecl} {shape : Shape} {inner : List Event}
    (tag : t.tag? = some (.openSection, call.name))
    (means : scope.meaning schema call.name .openSection names = .ok (.lambda decl, names))
    (returns : decl.returns = .model shape) (kind : call.kind = .model (names.fresh "model").1)
    (current : call.current = scope.currentExpr)
    (template : Adds schema "" (.value ⟨.var (names.fresh "model").1, shape⟩ :: scope)
      (names.fresh "model").2 tokens inner last) :
    Adds schema indent scope names (t :: taken) [.lambda call (.ok inner)] names := by
  obtain ⟨body, derives, spells⟩ := template
  refine ⟨[.lambda call (some body)], ?_, .modelLambda kind spells .nil⟩
  have whole : Derives schema indent scope names (t :: (taken ++ [])) [.lambda call (some body)]
      names := .modelLambda tag means returns kind current derives .nil
  simpa only [List.append_nil] using whole

theorem callLambda_adds {held : LambdaSection} {standalone : Bool} (taken : List LineToken)
    (tag : t.tag? = some (.openSection, held.name))
    (means : s.scope.meaning setting.schema held.name .openSection s.names =
      .ok (.lambda held.decl, s.names))
    (nestedDerives : ∀ nested ∈ nested?, NestedDerives setting nested)
    (done : callLambda setting nested? body s held standalone = .ok (events, next))
    (accepted : Program.Accepts events) :
    Adds setting.schema body.indent s.scope s.names (t :: taken) events s.names ∧
      next = { s with atLineStart := next.atLineStart } := by
  unfold callLambda at done
  cases nested? with
  | none => simp at done
  | some nested =>
      simp only [Except.ok.injEq, Prod.mk.injEq] at done
      obtain ⟨rfl, rfl⟩ := done
      refine ⟨?_, lambdaIndent_state body s _⟩
      refine (lambdaIndent_adds setting.schema s.scope s.names body s _).append ?_
      have called := (Program.accepts_of_append accepted).2
      cases returns : held.decl.returns with
      | raw =>
          exact rawLambda_adds taken tag means returns rfl rfl
      | model shape =>
          simp only [returns] at called ⊢
          obtain ⟨inner, compiled, innerAccepted⟩ := Program.accepts_model rfl called
          rw [compiled]
          obtain ⟨source, -, run⟩ := bind_eq_ok.mp compiled
          obtain ⟨⟨written, atLineStart⟩, compiledBody, same⟩ := bind_eq_ok.mp run
          simp only [pure_eq_ok, Except.ok.injEq] at same
          subst same
          obtain ⟨lines, last, -, derives⟩ :=
            nestedDerives nested rfl _ _ _ compiledBody innerAccepted
          exact modelLambda_adds taken tag means returns rfl rfl derives

theorem plainTag_advances {kind : TagKind} {name : String} {position : Position}
    (tag : t.tag? = some (kind, name)) (normal : s.mode = .normal)
    (nestedDerives : ∀ nested ∈ nested?, NestedDerives setting nested)
    (done : plainTag setting nested? body s kind name position = .ok (events, next))
    (accepted : Program.Accepts events) :
    Advances setting.schema body.indent s t events next := by
  refine .of_unindented ?_
  unfold plainTag at done
  cases kind with
  | escaped => exact variableTag_advances tag rfl normal done
  | unescaped => exact variableTag_advances tag rfl normal done
  | openSection => exact sectionTag_advances tag normal done
  | openInverted => exact invertedTag_advances tag normal done
  | close => exact closeTag_advances tag normal done
  | inclusion =>
      obtain ⟨adds, same⟩ := includeTemplate_adds [] tag rfl nestedDerives done accepted
      rw [same]
      exact .adds adds rfl rfl normal
  | openParent =>
      simp only [Except.ok.injEq, Prod.mk.injEq] at done
      obtain ⟨rfl, rfl⟩ := done
      exact .waits rfl rfl rfl ⟨t, [], name, rfl, tag⟩
  | openBlock =>
      simp only [Except.ok.injEq, Prod.mk.injEq] at done
      obtain ⟨rfl, rfl⟩ := done
      exact .opens (.openBlock tag) rfl rfl normal

theorem readPlain_advances (normal : s.mode = .normal)
    (nestedDerives : ∀ nested ∈ nested?, NestedDerives setting nested)
    (done : readPlain setting nested? body s t = .ok (events, next))
    (accepted : Program.Accepts events) :
    Advances setting.schema body.indent s t events next := by
  unfold readPlain at done
  cases role : t.role with
  | ignore | indent | eof =>
      simp only [role, Except.ok.injEq, Prod.mk.injEq] at done
      obtain ⟨rfl, rfl⟩ := done
      refine .silent (by simp [LineToken.tag?, role]) (by simp [LineToken.text, role]) normal ?_
      first | rfl | (split <;> rfl)
  | normal =>
      simp only [role] at done
      cases kind : t.token.kind with
      | text text | whitespace text =>
          simp only [kind, Except.ok.injEq] at done
          have written : text = t.text := by simp [LineToken.text, role, kind]
          rw [written] at done
          obtain ⟨rfl, rfl⟩ := Prod.mk.inj done
          exact writeText_advances (by simp [LineToken.tag?, Token.tag?, role, kind]) normal
      | special mark =>
          simp only [kind, Except.ok.injEq] at done
          have written : mark.text = t.text := by simp [LineToken.text, role, kind]
          rw [written] at done
          obtain ⟨rfl, rfl⟩ := Prod.mk.inj done
          exact writeText_advances (by simp [LineToken.tag?, Token.tag?, role, kind]) normal
      | newline ending =>
          simp only [kind, Except.ok.injEq, Prod.mk.injEq] at done
          obtain ⟨rfl, rfl⟩ := done
          have written : ending.text = t.text := by simp [LineToken.text, role, kind]
          rw [written]
          exact .adds (text_adds (by simp [LineToken.tag?, Token.tag?, role, kind])) rfl rfl normal
      | comment _ | delimiters _ _ | eof =>
          simp only [kind, Except.ok.injEq, Prod.mk.injEq] at done
          obtain ⟨rfl, rfl⟩ := done
          refine .silent ?_ ?_ normal rfl
          · simp [LineToken.tag?, Token.tag?, role, kind]
          · simp [LineToken.text, role, kind]
      | tag tagKind name =>
          simp only [kind] at done
          have tag : t.tag? = some (tagKind, name) := by
            simp [LineToken.tag?, Token.tag?, role, kind]
          exact plainTag_advances tag normal nestedDerives done accepted

def Progress (setting : Setting) (body : Body) (s : State) (tokens : List LineToken)
    (events : List Event) : Prop :=
  ∃ before taken, tokens = before ++ taken ∧ Waits setting.schema s taken ∧
    Draft setting.schema body.indent body.scope body.names s.openTags s.scope s.names before events

namespace Progress

variable {tokens : List LineToken}

theorem start (setting : Setting) (body : Body) : Progress setting body (.start body) [] [] :=
  ⟨[], [], rfl, rfl, .outermost .nil⟩

theorem wait (progress : Progress setting body s tokens events)
    (waits : ∀ taken, Waits setting.schema s taken → Waits setting.schema next (taken ++ [t]))
    (same : next = { s with mode := next.mode }) :
    Progress setting body next (tokens ++ [t]) (events ++ []) := by
  obtain ⟨before, taken, rfl, waiting, draft⟩ := progress
  rw [List.append_nil]
  refine ⟨before, taken ++ [t], by simp, waits taken waiting, ?_⟩
  rw [same]
  exact draft

theorem finish (progress : Progress setting body s tokens events)
    (adds : ∀ taken, Waits setting.schema s taken →
      Adds setting.schema body.indent s.scope s.names (taken ++ [t]) more s.names)
    (same : next = { s with mode := .normal, atLineStart := next.atLineStart }) :
    Progress setting body next (tokens ++ [t]) (events ++ more) := by
  obtain ⟨before, taken, rfl, waiting, draft⟩ := progress
  rw [same]
  refine ⟨before ++ (taken ++ [t]), [], by simp, rfl, ?_⟩
  exact draft.extend (adds taken waiting)

theorem advance (progress : Progress setting body s tokens events) (normal : s.mode = .normal)
    (advances : Advances setting.schema body.indent s t more next) :
    Progress setting body next (tokens ++ [t]) (events ++ more) := by
  obtain ⟨before, taken, rfl, waiting, draft⟩ := progress
  simp only [Waits, normal] at waiting
  subst waiting
  rw [List.append_nil]
  cases advances with
  | adds adds scope openTags mode =>
      refine ⟨before ++ [t], [], by simp, by simp [Waits, mode], ?_⟩
      rw [scope, openTags]
      exact draft.extend adds
  | opens opens names openTags mode =>
      refine ⟨before ++ [t], [], by simp, by simp [Waits, mode], ?_⟩
      rw [openTags]
      have opened := Draft.inside draft opens .nil
      rw [names]
      simpa only [List.append_nil] using opened
  | closes closing openTags scope names mode =>
      refine ⟨before ++ [t], [], by simp, by simp [Waits, mode], ?_⟩
      rw [openTags] at draft
      rw [scope, names]
      exact draft.close closing
  | waits scope names openTags waits =>
      refine ⟨before, [t], rfl, waits, ?_⟩
      rw [scope, names, openTags, List.append_nil]
      exact draft

theorem endGroup (progress : Progress setting body s tokens events) :
    Progress setting body (endGroup s) tokens events := by
  obtain ⟨before, taken, same, waiting, draft⟩ := progress
  refine ⟨before, taken, same, ?_, ?_⟩
  all_goals
    unfold Compile.endGroup
    split
  · next held mode => simpa only [Waits, mode] using waiting
  · exact waiting
  all_goals exact draft

end Progress

variable {tokens : List LineToken}

theorem readParent_progress {call : ParentCall} {indent : String} {token : Token}
    (progress : Progress setting body s tokens events) (mode : s.mode = .parent call indent)
    (nestedDerives : ∀ nested ∈ nested?, NestedDerives setting nested)
    (done : readParent setting nested? body s call indent token = .ok (more, next))
    (accepted : Program.Accepts more) :
    Progress setting body next (tokens ++ [t]) (events ++ more) := by
  unfold readParent at done
  split at done
  · simp at done
  · simp only [Except.ok.injEq, Prod.mk.injEq] at done
    obtain ⟨rfl, rfl⟩ := done
    refine progress.wait ?_ rfl
    intro taken waiting
    simp only [Waits, mode] at waiting
    obtain ⟨opening, rest, name, rfl, tag⟩ := waiting
    exact ⟨opening, rest ++ [t], name, rfl, tag⟩
  · refine progress.finish ?_ ?_
    · intro taken waiting
      simp only [Waits, mode] at waiting
      obtain ⟨opening, rest, name, rfl, tag⟩ := waiting
      exact (includeTemplate_adds (rest ++ [t]) tag rfl nestedDerives done accepted).1
    · obtain ⟨before, taken, -, waiting, -⟩ := progress
      simp only [Waits, mode] at waiting
      obtain ⟨opening, rest, name, rfl, tag⟩ := waiting
      exact (includeTemplate_adds rest tag rfl nestedDerives done accepted).2

theorem readLambda_progress {held : LambdaSection} {closing standalone : Bool}
    (progress : Progress setting body s tokens events) (mode : s.mode = .lambda held)
    (nestedDerives : ∀ nested ∈ nested?, NestedDerives setting nested)
    (done : readLambda setting nested? body s held t closing standalone = .ok (more, next))
    (accepted : Program.Accepts more) :
    Progress setting body next (tokens ++ [t]) (events ++ more) := by
  have keep (text : String) (depth : Nat) (opening : Bool) :
      Progress setting body { s with mode := .lambda { held with body := text, depth, opening } }
        (tokens ++ [t]) (events ++ []) := by
    refine progress.wait ?_ rfl
    intro taken waiting
    simp only [Waits, mode] at waiting ⊢
    obtain ⟨first, rest, rfl, tag, means⟩ := waiting
    exact ⟨first, rest ++ [t], rfl, tag, means⟩
  have skip : Progress setting body s (tokens ++ [t]) (events ++ []) := by
    have kept := keep held.body held.depth held.opening
    rwa [← mode] at kept
  have called (step : callLambda setting nested? body { s with mode := .normal } held standalone =
      .ok (more, next)) : Progress setting body next (tokens ++ [t]) (events ++ more) := by
    refine progress.finish ?_ ?_
    · intro taken waiting
      simp only [Waits, mode] at waiting
      obtain ⟨opening, rest, rfl, tag, means⟩ := waiting
      exact (callLambda_adds (s := { s with mode := .normal }) (rest ++ [t]) tag means
        nestedDerives step accepted).1
    · obtain ⟨before, taken, -, waiting, -⟩ := progress
      simp only [Waits, mode] at waiting
      obtain ⟨opening, rest, rfl, tag, means⟩ := waiting
      exact (callLambda_adds (s := { s with mode := .normal }) rest tag means
        nestedDerives step accepted).2
  -- Every branch passes over the token, keeps its text, or ends the section with it.
  unfold readLambda at done
  dsimp only at done
  repeat' split at done
  all_goals try simp only [Except.ok.injEq, Prod.mk.injEq, reduceCtorEq] at done
  all_goals first
    | exact called done
    | obtain ⟨rfl, rfl⟩ := done
      first | exact skip | exact keep _ _ _

theorem readToken_progress {closing standalone : Bool}
    (progress : Progress setting body s tokens events)
    (nestedDerives : ∀ nested ∈ nested?, NestedDerives setting nested)
    (done : readToken setting nested? body closing standalone s t = .ok (more, next))
    (accepted : Program.Accepts more) :
    Progress setting body next (tokens ++ [t]) (events ++ more) := by
  unfold readToken at done
  split at done
  · next normal =>
      exact progress.advance normal (readPlain_advances normal nestedDerives done accepted)
  · next call indent mode =>
      exact readParent_progress progress mode nestedDerives done accepted
  · next held mode => exact readLambda_progress progress mode nestedDerives done accepted

theorem runAll_progress {α : Type} {step : State → α → Outcome} (read : α → List LineToken)
    (stepProgress : ∀ {s next : State} {item : α} {tokens : List LineToken}
      {events more : List Event}, Progress setting body s tokens events →
      step s item = .ok (more, next) → Program.Accepts more →
      Progress setting body next (tokens ++ read item) (events ++ more))
    {items : List α} (progress : Progress setting body s tokens events)
    (done : runAll step s items = .ok (more, next)) (accepted : Program.Accepts more) :
    Progress setting body next (tokens ++ items.flatMap read) (events ++ more) := by
  induction items generalizing s tokens events more with
  | nil =>
      simp only [runAll, Except.ok.injEq, Prod.mk.injEq] at done
      obtain ⟨rfl, rfl⟩ := done
      simpa using progress
  | cons item rest ih =>
      obtain ⟨⟨first, middle⟩, head, done⟩ := bind_eq_ok.mp done
      obtain ⟨⟨later, last⟩, tail, done⟩ := bind_eq_ok.mp done
      simp only [pure_eq_ok, Except.ok.injEq, Prod.mk.injEq] at done
      obtain ⟨rfl, rfl⟩ := done
      obtain ⟨acceptedFirst, acceptedLater⟩ := Program.accepts_of_append accepted
      have whole := ih (stepProgress progress head acceptedFirst) tail acceptedLater
      simpa only [List.flatMap_cons, List.append_assoc] using whole

theorem readGroup_progress {g : LineGroup} (progress : Progress setting body s tokens events)
    (nestedDerives : ∀ nested ∈ nested?, NestedDerives setting nested)
    (done : readGroup setting nested? body s g = .ok (more, next))
    (accepted : Program.Accepts more) :
    Progress setting body next (tokens ++ g) (events ++ more) := by
  obtain ⟨⟨written, after⟩, run, done⟩ := bind_eq_ok.mp done
  simp only [pure_eq_ok, Except.ok.injEq, Prod.mk.injEq] at done
  obtain ⟨rfl, rfl⟩ := done
  have read := runAll_progress (fun t => [t])
    (fun progress step accepted => readToken_progress progress nestedDerives step accepted)
    progress run accepted
  simpa using read.endGroup

theorem checkClosed_iff : checkClosed body s = .ok () ↔ s.mode = .normal ∧ s.openTags = [] := by
  unfold checkClosed
  split <;> simp_all

theorem compileWith_derives (nestedDerives : ∀ nested ∈ nested?, NestedDerives setting nested) :
    NestedDerives setting (compileWith setting nested?) := by
  intro body events atLineStart done accepted
  obtain ⟨lines, grouped, done⟩ := bind_eq_ok.mp done
  obtain ⟨⟨written, s⟩, run, done⟩ := bind_eq_ok.mp done
  obtain ⟨⟨⟩, closed, done⟩ := bind_eq_ok.mp done
  simp only [pure_eq_ok, Except.ok.injEq, Prod.mk.injEq] at done
  obtain ⟨rfl, -⟩ := done
  have read := runAll_progress (fun g => g)
    (fun progress step accepted => readGroup_progress progress nestedDerives step accepted)
    (.start setting body) run accepted
  obtain ⟨before, taken, same, waiting, draft⟩ := read
  simp only [List.nil_append, List.flatMap_id'] at same draft
  obtain ⟨mode, openTags⟩ := checkClosed_iff.mp closed
  simp only [Waits, mode] at waiting
  subst waiting
  rw [List.append_nil] at same
  rw [openTags] at draft
  exact ⟨lines, s.names, grouped, same ▸ draft.adds⟩

theorem compileBody_derives (setting : Setting) (room : Nat) :
    NestedDerives setting (compileBody setting room) := by
  induction room with
  | zero =>
      refine compileWith_derives ?_
      intro nested none
      cases none
  | succ room ih =>
      refine compileWith_derives ?_
      intro nested given
      cases given
      exact ih

end Stencil.Compile

namespace Stencil.Program

open Compile

/-- A compiled program holds what the events of its template spell out, with literals joined. This
is a derivation for the tokens of the template. -/
theorem compile_ok {schema : Schema} {library : Library} {options : Options}
    {template : Template} {program : Program}
    (compiled : Program.compile schema library options template = .ok program) :
    ∃ events atLineStart lines instructions last,
      compileBody ⟨schema, library, options⟩ options.maxIncludeDepth (.root schema template) =
        .ok (events, atLineStart) ∧
      groups (.root schema template) = .ok lines ∧
      Derives schema "" (.root schema.root) .root lines.flatten instructions last ∧
      Spells events instructions ∧ program = ⟨template.name, joinOnto [] instructions, []⟩ := by
  obtain ⟨events, done, made⟩ := bind_eq_ok.mp compiled
  obtain ⟨⟨written, atLineStart⟩, run, rfl⟩ := map_eq_ok.mp done
  obtain ⟨lines, last, grouped, instructions, derives, spells⟩ :=
    compileBody_derives _ _ _ _ _ run (accepts_of_ofEvents made)
  rw [ofEvents_spells spells, Except.ok.injEq] at made
  exact ⟨written, atLineStart, lines, instructions, last, run, grouped, derives, spells, made.symm⟩

theorem compile_derives {schema : Schema} {library : Library} {options : Options}
    {template : Template} {program : Program}
    (compiled : Program.compile schema library options template = .ok program) :
    ∃ lines instructions last, groups (.root schema template) = .ok lines ∧
      Derives schema "" (.root schema.root) .root lines.flatten instructions last ∧
      program = ⟨template.name, joinOnto [] instructions, []⟩ := by
  obtain ⟨-, -, lines, instructions, last, -, grouped, derives, -, made⟩ := compile_ok compiled
  exact ⟨lines, instructions, last, grouped, derives, made⟩

end Stencil.Program
