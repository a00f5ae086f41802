import Mathlib.Data.List.Induction
import Stencil.Proofs.Compile.Run
import Stencil.Proofs.Compile.Unplaced

/-!
Compiling the same tokens in two templates. Main statement: where tokens stand, and how their
template came to be compiled, has no bearing on the events that they become, as long as they bring
in no other template.
-/

namespace Stencil

namespace Compile

def Mode.isLambda : Mode → Bool
  | .lambda _ => true
  | .normal | .parent _ _ => false

def OpenTag.unplaced (tag : OpenTag) : OpenTag := { tag with position := .unknown }

structure State.Alike (s other : State) : Prop where
  scope : s.scope = other.scope
  names : s.names = other.names
  atLineStart : s.atLineStart = other.atLineStart
  pendingIndent : s.pendingIndent = other.pendingIndent
  openTags : s.openTags.map OpenTag.unplaced = other.openTags.map OpenTag.unplaced
  normal : s.mode = .normal
  otherNormal : other.mode = .normal

inductive Outcome.Alike : Outcome → Outcome → Prop where
  | failed {error other : CompileError} : Outcome.Alike (.error error) (.error other)
  | done {events : List Event} {s other : State} :
      (∀ event ∈ events, ∃ call, event = .call call) → s.Alike other →
      Outcome.Alike (.ok (events, s)) (.ok (events, other))

variable {setting otherSetting : Setting} {nested? otherNested? : Option Nested}
  {body otherBody : Body} {s other : State} {t otherToken : LineToken}

theorem Outcome.Alike.silent (alike : s.Alike other) :
    Outcome.Alike (.ok ([], s)) (.ok ([], other)) :=
  .done (by simp) alike

theorem Outcome.Alike.bind {first otherFirst : Outcome}
    {next otherNext : List Event × State → Outcome} (alike : first.Alike otherFirst)
    (later : ∀ {events : List Event} {s other : State},
      (∀ event ∈ events, ∃ call, event = .call call) → s.Alike other →
      Outcome.Alike (next (events, s)) (otherNext (events, other))) :
    Outcome.Alike (first >>= next) (otherFirst >>= otherNext) := by
  cases alike with
  | failed => exact .failed
  | done calls between => exact later calls between

section

variable (sameSchema : setting.schema = otherSetting.schema)
  (sameIndent : body.indent = otherBody.indent) (alike : s.Alike other)

include sameIndent alike in
theorem indentLine_alike :
    (indentLine body s).1 = (indentLine otherBody other).1 ∧
      (∀ event ∈ (indentLine body s).1, ∃ call, event = .call call) ∧
      (indentLine body s).2.Alike (indentLine otherBody other).2 := by
  refine ⟨?_, ?_, { alike with atLineStart := rfl }⟩
  · simp only [indentLine, alike.atLineStart, sameIndent]
  · unfold indentLine
    dsimp only
    split <;> simp

include sameIndent alike in
theorem writeText_alike (text : String) :
    Outcome.Alike (.ok (writeText body s text)) (.ok (writeText otherBody other text)) := by
  obtain ⟨events, calls, after⟩ := indentLine_alike sameIndent alike
  simp only [writeText, ← events]
  refine .done ?_ after
  simpa [or_imp, forall_and] using calls

include sameSchema alike in
theorem meaning_alike (body otherBody : Body) (name : String) (purpose : NameUse)
    (position otherPosition : Position) :
    (∃ error otherError, meaning setting body s name purpose position = .error error ∧
      meaning otherSetting otherBody other name purpose otherPosition = .error otherError) ∨
    ∃ result, meaning setting body s name purpose position = .ok result ∧
      meaning otherSetting otherBody other name purpose otherPosition = .ok result := by
  unfold meaning
  rw [← alike.scope, ← alike.names, ← sameSchema]
  cases s.scope.meaning setting.schema name purpose s.names with
  | error problem => exact .inl ⟨_, _, rfl, rfl⟩
  | ok result => exact .inr ⟨result, rfl, rfl⟩

include sameSchema sameIndent alike in
theorem variableTag_alike (name : String) (purpose : NameUse) (escaping : Escaping)
    (position otherPosition : Position) :
    Outcome.Alike (variableTag setting body s name purpose escaping position)
      (variableTag otherSetting otherBody other name purpose escaping otherPosition) := by
  unfold variableTag
  obtain ⟨error, otherError, failed, otherFailed⟩ | ⟨⟨found, names⟩, done, otherDone⟩ :=
    meaning_alike sameSchema alike body otherBody name purpose position otherPosition
  · rw [failed, otherFailed]
    exact .failed
  · rw [done, otherDone]
    have renamed : State.Alike { s with names } { other with names } := { alike with names := rfl }
    cases found with
    | value found =>
        obtain ⟨events, calls, after⟩ := indentLine_alike sameIndent renamed
        simp only [ok_bind, pure_eq_ok, ← events]
        refine .done ?_ after
        simpa [or_imp, forall_and] using calls
    | _ => exact .silent renamed

include alike in
theorem openTag_alike (kind : TagKind) (name : String) (position otherPosition : Position)
    (guards : Nat) {scope otherScope : Scope} (sameScope : scope = otherScope) :
    (openTag s kind name position guards scope).Alike
      (openTag other kind name otherPosition guards otherScope) := by
  refine { alike with scope := sameScope, openTags := ?_ }
  simp [openTag, OpenTag.unplaced, alike.openTags, alike.scope, alike.names]

include sameSchema alike in
theorem sectionTag_alike (noLambdas : setting.schema.lambdas = []) (name : String)
    (position otherPosition : Position) :
    Outcome.Alike (sectionTag setting body s name position)
      (sectionTag otherSetting otherBody other name otherPosition) := by
  unfold sectionTag
  obtain ⟨error, otherError, failed, otherFailed⟩ | ⟨⟨found, names⟩, done, otherDone⟩ :=
    meaning_alike sameSchema alike body otherBody name .openSection position otherPosition
  · rw [failed, otherFailed]
    exact .failed
  · have means := meaning_ok done
    rw [done, otherDone]
    have renamed : State.Alike { s with names } { other with names } := { alike with names := rfl }
    obtain ⟨value, guards, inside, -, -, rfl⟩ | ⟨decl, declared, -⟩ :=
      Scope.meaning_openSection means
    · simp only [ok_bind, pure_eq_ok]
      exact .done (by simp) (openTag_alike renamed _ _ _ _ _ rfl)
    · rw [noLambdas] at declared
      cases declared

include sameSchema alike in
theorem invertedTag_alike (name : String) (position otherPosition : Position) :
    Outcome.Alike (invertedTag setting body s name position)
      (invertedTag otherSetting otherBody other name otherPosition) := by
  unfold invertedTag
  obtain ⟨error, otherError, failed, otherFailed⟩ | ⟨⟨found, names⟩, done, otherDone⟩ :=
    meaning_alike sameSchema alike body otherBody name .openInverted position otherPosition
  · rw [failed, otherFailed]
    exact .failed
  · rw [done, otherDone]
    have renamed : State.Alike { s with names } { other with names } := { alike with names := rfl }
    cases found with
    | openInverted guard scope =>
        simp only [ok_bind, pure_eq_ok]
        exact .done (by simp) (openTag_alike renamed _ _ _ _ _ rfl)
    | _ => exact .silent renamed

include alike in
theorem closeTag_alike (name : String) (position otherPosition : Position) :
    Outcome.Alike (closeTag body s name position)
      (closeTag otherBody other name otherPosition) := by
  have open? := alike.openTags
  unfold closeTag
  cases tags : s.openTags with
  | nil =>
      rw [tags, List.map_nil, eq_comm, List.map_eq_nil_iff] at open?
      rw [open?]
      exact .failed
  | cons tag outer =>
      rw [tags, List.map_cons, eq_comm, List.map_eq_cons_iff] at open?
      obtain ⟨otherTag, otherOuter, otherTags, same, around⟩ := open?
      simp only [OpenTag.unplaced, OpenTag.mk.injEq, true_and] at same
      obtain ⟨kind, named, guards, scope, names⟩ := same
      rw [otherTags]
      simp only [kind, named, guards]
      split
      · exact .failed
      · refine .done ?_ { alike with
          scope := scope.symm, names := names.symm, openTags := around.symm }
        cases tag.kind <;> simp

include sameSchema sameIndent alike in
theorem plainTag_alike (noLambdas : setting.schema.lambdas = []) {kind : TagKind}
    (isLocal : kind.isIndented = false) (name : String) (position otherPosition : Position) :
    Outcome.Alike (plainTag setting nested? body s kind name position)
      (plainTag otherSetting otherNested? otherBody other kind name otherPosition) := by
  have unindented : State.Alike { s with pendingIndent := none }
      { other with pendingIndent := none } :=
    { alike with pendingIndent := rfl }
  unfold plainTag
  cases kind with
  | escaped => exact variableTag_alike sameSchema sameIndent unindented _ _ _ _ _
  | unescaped => exact variableTag_alike sameSchema sameIndent unindented _ _ _ _ _
  | openSection => exact sectionTag_alike sameSchema unindented noLambdas _ _ _
  | openInverted => exact invertedTag_alike sameSchema unindented _ _ _
  | close => exact closeTag_alike unindented _ _ _
  | openBlock => exact .done (by simp) (openTag_alike unindented _ _ _ _ _ alike.scope)
  | inclusion | openParent => cases isLocal

include sameSchema sameIndent alike in
theorem readPlain_alike (noLambdas : setting.schema.lambdas = [])
    (same : t.unplaced = otherToken.unplaced) (isLocal : t.token.isLocal = true) :
    Outcome.Alike (readPlain setting nested? body s t)
      (readPlain otherSetting otherNested? otherBody other otherToken) := by
  have role : otherToken.role = t.role := (congrArg LineToken.role same).symm
  have kind : otherToken.token.kind = t.token.kind :=
    (congrArg (fun t => t.token.kind) same).symm
  unfold readPlain
  rw [role, kind]
  have newline : otherToken.token.isNewline = t.token.isNewline := by
    simp only [Token.isNewline, kind]
  cases t.role with
  | ignore =>
      dsimp only
      rw [newline]
      split
      · exact .silent { alike with atLineStart := rfl }
      · exact .silent alike
  | indent =>
      dsimp only
      split
      · exact .silent { alike with pendingIndent := rfl }
      · exact .silent alike
  | eof => exact .silent alike
  | normal =>
      dsimp only
      cases found : t.token.kind with
      | text text | whitespace text => exact writeText_alike sameIndent alike text
      | special mark => exact writeText_alike sameIndent alike mark.text
      | newline ending => exact .done (by simp) { alike with atLineStart := rfl }
      | comment _ | delimiters _ _ | eof => exact .silent alike
      | tag tagKind name =>
          have kept : tagKind.isIndented = false := by
            simp only [Token.isLocal, found] at isLocal
            cases tagKind <;> first | rfl | cases isLocal
          exact plainTag_alike sameSchema sameIndent alike noLambdas kept _ _ _

end

theorem State.Alike.refl (normal : s.mode = .normal) : s.Alike s :=
  ⟨rfl, rfl, rfl, rfl, rfl, normal, normal⟩

theorem runAll_alike {α : Type} {step otherStep : State → α → Outcome} {items others : List α}
    (each : List.Forall₂ (fun item otherItem => ∀ {s other : State}, s.Alike other →
      Outcome.Alike (step s item) (otherStep other otherItem)) items others)
    (alike : s.Alike other) :
    Outcome.Alike (runAll step s items) (runAll otherStep other others) := by
  induction each generalizing s other with
  | nil => exact .silent alike
  | @cons item otherItem rest otherRest first _ ih =>
      unfold runAll
      refine (first alike).bind fun calls between => (ih between).bind fun more last => ?_
      exact .done (List.forall_mem_append.mpr ⟨calls, more⟩) last

section

variable {group otherGroup : LineGroup} {groups otherGroups : List LineGroup}

theorem readGroup_alike (sameSchema : setting.schema = otherSetting.schema)
    (sameIndent : body.indent = otherBody.indent) (noLambdas : setting.schema.lambdas = [])
    (same : group.map LineToken.unplaced = otherGroup.map LineToken.unplaced)
    (isLocal : ∀ t ∈ group, t.token.isLocal = true) (alike : s.Alike other) :
    Outcome.Alike (readGroup setting nested? body s group)
      (readGroup otherSetting otherNested? otherBody other otherGroup) := by
  have each : List.Forall₂ (fun t otherToken => ∀ {s other : State}, s.Alike other →
      Outcome.Alike (readToken setting nested? body false false s t)
        (readToken otherSetting otherNested? otherBody false false other otherToken))
      group otherGroup := by
    induction group generalizing otherGroup with
    | nil =>
        rw [List.map_nil, eq_comm, List.map_eq_nil_iff] at same
        subst same
        exact .nil
    | cons t rest ih =>
        rw [List.map_cons, eq_comm, List.map_eq_cons_iff] at same
        obtain ⟨otherToken, others, rfl, here, further⟩ := same
        obtain ⟨first, later⟩ := List.forall_mem_cons.mp isLocal
        refine .cons ?_ (ih further.symm later)
        intro s other alike
        unfold readToken
        rw [alike.normal, alike.otherNormal]
        exact readPlain_alike sameSchema sameIndent alike noLambdas here.symm first
  unfold readGroup
  rw [alike.normal, alike.otherNormal]
  refine (runAll_alike each alike).bind fun calls after => ?_
  have ended (s : State) (normal : s.mode = .normal) : endGroup s = s := by
    unfold endGroup
    rw [normal]
  simp only [ended _ after.normal, ended _ after.otherNormal]
  exact .done calls after

theorem readGroups_alike (sameSchema : setting.schema = otherSetting.schema)
    (sameIndent : body.indent = otherBody.indent) (noLambdas : setting.schema.lambdas = [])
    (same : groups.map (List.map LineToken.unplaced) =
      otherGroups.map (List.map LineToken.unplaced))
    (isLocal : ∀ t ∈ groups.flatten, t.token.isLocal = true) (alike : s.Alike other) :
    Outcome.Alike (runAll (readGroup setting nested? body) s groups)
      (runAll (readGroup otherSetting otherNested? otherBody) other otherGroups) := by
  refine runAll_alike ?_ alike
  induction groups generalizing otherGroups with
  | nil =>
      rw [List.map_nil, eq_comm, List.map_eq_nil_iff] at same
      subst same
      exact .nil
  | cons group rest ih =>
      rw [List.map_cons, eq_comm, List.map_eq_cons_iff] at same
      obtain ⟨otherGroup, others, rfl, here, further⟩ := same
      rw [List.flatten_cons, List.forall_mem_append] at isLocal
      refine .cons ?_ (ih further.symm isLocal.2)
      intro s other alike
      exact readGroup_alike sameSchema sameIndent noLambdas here.symm isLocal.1 alike

end

theorem includeTemplate_state {kind : FrameKind} {name : String} {position : Position}
    {indent : String} {blocks : GivenBlocks} {result : List Event × State}
    (done : includeTemplate setting nested? body s kind name position indent blocks = .ok result) :
    result.2 = { s with atLineStart := result.2.atLineStart } := by
  unfold includeTemplate at done
  cases nested? with
  | none => simp at done
  | some nested =>
      obtain ⟨template, -, done⟩ := bind_eq_ok.mp done
      split at done
      · simp at done
      · obtain ⟨inner, -, done⟩ := bind_eq_ok.mp done
        cases done
        rfl

theorem readToken_isLambda (noLambdas : setting.schema.lambdas = [])
    (outside : s.mode.isLambda = false) {result : List Event × State}
    (done : readToken setting nested? body false false s t = .ok result) :
    result.2.mode.isLambda = false := by
  unfold readToken at done
  cases mode : s.mode with
  | lambda held =>
      rw [mode] at outside
      cases outside
  | parent call indent =>
      rw [mode] at done
      dsimp only [readParent] at done
      split at done
      · cases done
      · cases done
        rfl
      · rw [includeTemplate_state done]
        rfl
  | normal =>
      rw [mode] at done
      dsimp only at done
      cases isLocal : t.token.isLocal with
      | true =>
          have itself : Outcome.Alike (readPlain setting nested? body s t)
              (readPlain setting nested? body s t) :=
            readPlain_alike rfl rfl (.refl mode) noLambdas rfl isLocal
          rw [done] at itself
          cases itself with
          | done calls alike => rw [alike.normal, Mode.isLambda]
      | false =>
          obtain ⟨kind, name, found, indented⟩ : ∃ kind name, t.token.kind = .tag kind name ∧
              kind.isIndented = true := by
            unfold Token.isLocal at isLocal
            split at isLocal
            · next name found => exact ⟨_, name, found, rfl⟩
            · next name found => exact ⟨_, name, found, rfl⟩
            · cases isLocal
          unfold readPlain at done
          rw [found] at done
          cases role : t.role with
          | normal =>
              rw [role] at done
              cases kind with
              | inclusion =>
                  rw [includeTemplate_state done]
                  exact mode ▸ rfl
              | openParent =>
                  cases done
                  rfl
              | _ => cases indented
          | ignore =>
              rw [role] at done
              cases done
              split <;> exact outside
          | indent | eof =>
              rw [role] at done
              cases done
              exact outside

theorem runAll_append {α : Type} (step : State → α → Outcome) (s : State) (front more : List α) :
    runAll step s (front ++ more) = do
      let (events, middle) ← runAll step s front
      let (later, last) ← runAll step middle more
      return (events ++ later, last) := by
  induction front generalizing s with
  | nil =>
      simp only [List.nil_append, runAll, ok_bind]
      cases runAll step s more <;> rfl
  | cons item front ih =>
      simp only [List.cons_append, runAll, ih]
      cases step s item with
      | error problem => rfl
      | ok result =>
          simp only [ok_bind]
          cases runAll step result.2 front with
          | error problem => rfl
          | ok middle =>
              simp only [ok_bind, pure_eq_ok]
              cases runAll step middle.2 more with
              | error problem => rfl
              | ok last => simp

theorem runAll_singleton {α : Type} (step : State → α → Outcome) (s : State) (item : α) :
    runAll step s [item] = step s item := by
  unfold runAll
  cases step s item with
  | error problem => rfl
  | ok result => simp [runAll]

theorem runAll_induction {α : Type} {step : State → α → Outcome} {items : List α}
    {P : List α → List Event → State → Prop} {events : List Event} {last : State}
    (start : P [] [] s)
    (next : ∀ front item back events middle more after, items = front ++ item :: back →
      runAll step s front = .ok (events, middle) → P front events middle →
      step middle item = .ok (more, after) → P (front ++ [item]) (events ++ more) after)
    (done : runAll step s items = .ok (events, last)) : P items events last := by
  induction items using List.reverseRecOn generalizing events last with
  | nil =>
      cases done
      exact start
  | append_singleton front item ih =>
      rw [runAll_append] at done
      obtain ⟨⟨events, middle⟩, run, done⟩ := bind_eq_ok.mp done
      obtain ⟨⟨more, after⟩, here, done⟩ := bind_eq_ok.mp done
      cases done
      rw [runAll_singleton] at here
      refine next front item [] events middle more last rfl run (ih ?_ run) here
      intro earlier other back _ _ _ _ split
      exact next earlier other (back ++ [item]) _ _ _ _ (by rw [split]; simp)

theorem runAll_invariant {α : Type} {step : State → α → Outcome} {P : State → Prop} {items : List α}
    (kept : ∀ item ∈ items, ∀ s result, P s → step s item = .ok result → P result.2)
    (start : P s) {result : List Event × State} (done : runAll step s items = .ok result) :
    P result.2 := by
  refine runAll_induction (P := fun _ _ s => P s) start ?_ done
  intro front item back _ middle _ _ split _ holds here
  exact kept item (by rw [split]; simp) middle _ holds here

theorem runAll_readGroup_of {P : State → Prop} (groups : List LineGroup)
    (outside : ∀ s, P s → s.mode.isLambda = false)
    (kept : ∀ t ∈ groups.flatten, ∀ s result, P s →
      readToken setting nested? body false false s t = .ok result → P result.2) (start : P s) :
    runAll (readGroup setting nested? body) s groups =
      runAll (readToken setting nested? body false false) s groups.flatten := by
  induction groups generalizing s with
  | nil => rfl
  | cons group groups ih =>
      rw [List.flatten_cons, List.forall_mem_append] at kept
      have closing : closesLambda s.mode group = false := by
        unfold closesLambda
        split
        · next held mode => cases (mode ▸ outside s start : (Mode.lambda held).isLambda = false)
        · rfl
      rw [List.flatten_cons, runAll_append, runAll, readGroup]
      simp only [closing, Bool.false_and]
      cases run : runAll (readToken setting nested? body false false) s group with
      | error problem => rfl
      | ok result =>
          have after := runAll_invariant kept.1 start run
          have ended : endGroup result.2 = result.2 := by
            unfold endGroup
            split
            · next held mode =>
                cases (mode ▸ outside _ after : (Mode.lambda held).isLambda = false)
            · rfl
          simp only [ok_bind, pure_eq_ok, ended, ih kept.2 after]

theorem runAll_readGroup (noLambdas : setting.schema.lambdas = []) (groups : List LineGroup)
    (outside : s.mode.isLambda = false) :
    runAll (readGroup setting nested? body) s groups =
      runAll (readToken setting nested? body false false) s groups.flatten :=
  runAll_readGroup_of (P := fun s => s.mode.isLambda = false) groups (fun _ outside => outside)
    (fun _ _ _ _ outside done => readToken_isLambda noLambdas outside done) outside

end Compile

end Stencil
