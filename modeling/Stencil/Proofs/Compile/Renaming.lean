import Stencil.Proofs.Compile.Run
import Stencil.Proofs.Compile.Unplaced
import Stencil.Proofs.Program.Renaming
import Stencil.Proofs.Token.Joined

/-!
Compiling under new names of the variables. Main statement: a body that stands elsewhere, where the
variables in scope have other names, is compiled to the same events under the new names.
-/

namespace Stencil

def TemplateStack.enterAll (stack : TemplateStack) (entered : List Frame) : TemplateStack :=
  entered.foldl (fun stack frame => stack.enter frame.kind frame.name) stack

theorem TemplateStack.contains_enter (stack : TemplateStack) (kind : FrameKind)
    (name searched : String) : (stack.enter kind name).contains searched =
      ((kind ≠ .lambda && name = searched) || stack.contains searched) := rfl

/-- That the templates found within one stack are found within another, however many more are
entered, and that it has no templates open which are not open in the first. -/
structure Library.Serves (library : Library) (stack other : TemplateStack) : Prop where
  finds : ∀ (entered : List Frame) (name : String) (template : Template),
    library name (stack.enterAll entered) = .ok template →
    library name (other.enterAll entered) = .ok template
  contains : ∀ name, other.contains name = true → stack.contains name = true

namespace Library.Serves

variable {library : Library} {stack other : TemplateStack}

theorem refl (library : Library) (stack : TemplateStack) : library.Serves stack stack :=
  ⟨fun _ _ _ found => found, fun _ isOpen => isOpen⟩

theorem ofCatalog {catalog : Table String}
    (contains : ∀ name, other.contains name = true → stack.contains name = true) :
    (Library.ofCatalog catalog).Serves stack other :=
  ⟨fun _ _ _ found => found, contains⟩

theorem enter (serves : library.Serves stack other) (kind : FrameKind) (name : String) :
    library.Serves (stack.enter kind name) (other.enter kind name) := by
  refine ⟨fun entered => serves.finds (⟨kind, name⟩ :: entered), ?_⟩
  intro searched isOpen
  rw [TemplateStack.contains_enter, Bool.or_eq_true] at isOpen ⊢
  exact isOpen.imp_right (serves.contains searched)

theorem fetch (serves : library.Serves stack other) {name : String} {position : Position}
    {template : Template} (fetched : library.fetch name stack position = .ok template)
    (otherPosition : Position) : library.fetch name other otherPosition = .ok template := by
  unfold Library.fetch at fetched ⊢
  generalize Fragment.ofName name = target at fetched ⊢
  obtain ⟨path, fragment?⟩ := target
  obtain ⟨found, searched, fetched⟩ := bind_eq_ok.mp fetched
  have there := serves.finds [] path found (mapError_eq_ok.mp searched)
  refine bind_eq_ok.mpr ⟨found, mapError_eq_ok.mpr there, ?_⟩
  cases fragment? with
  | none => exact fetched
  | some fragment =>
      obtain ⟨part?, read, fetched⟩ := bind_eq_ok.mp fetched
      refine bind_eq_ok.mpr ⟨part?, read, ?_⟩
      cases part? with
      | none => cases fetched
      | some source => exact fetched

end Library.Serves

namespace Compile

variable {ρ : Renaming} {setting : Setting} {nested? otherNested? : Option Nested}
  {body otherBody : Body} {s other next : State} {t otherToken : LineToken} {events : List Event}

structure OpenTag.Renames (ρ : Renaming) (tag other : OpenTag) : Prop where
  kind : other.kind = tag.kind
  name : other.name = tag.name
  guards : other.guards = tag.guards
  scope : other.scope = tag.scope.rename ρ
  names : ρ.Follows tag.names other.names

inductive Mode.Alike : Mode → Mode → Prop where
  | normal : Alike .normal .normal
  | parent {call other : ParentCall} (indent : String) : call.unplaced = other.unplaced →
      Alike (.parent call indent) (.parent other indent)
  | lambda (held : LambdaSection) (position : Position) :
      Alike (.lambda held) (.lambda { held with position })

/-- A state and the same one elsewhere, where the variables in scope have new names. -/
structure State.Renames (ρ : Renaming) (s other : State) : Prop where
  scope : other.scope = s.scope.rename ρ
  names : ρ.Follows s.names other.names
  atLineStart : other.atLineStart = s.atLineStart
  pendingIndent : other.pendingIndent = s.pendingIndent
  openTags : List.Forall₂ (OpenTag.Renames ρ) s.openTags other.openTags
  mode : s.mode.Alike other.mode

structure Body.Matches (library : Library) (body other : Body) : Prop where
  stack : library.Serves body.stack other.stack
  indent : other.indent = body.indent
  blocks : other.blocks.map (List.map GivenBlock.unplaced) =
    body.blocks.map (List.map GivenBlock.unplaced)

structure Body.Renames (library : Library) (ρ : Renaming) (body other : Body) : Prop where
  like : body.Matches library other
  start : (State.start body).Renames ρ (.start other)
  source : other.source = body.source

def Outcome.Renames (ρ : Renaming) (outcome other : Outcome) : Prop :=
  ∀ events next, outcome = .ok (events, next) → ∃ others after, other = .ok (others, after) ∧
    Stencil.Renames ρ events others ∧ next.Renames ρ after

def RespectsNames (library : Library) (nested otherNested : Nested) : Prop :=
  ∀ {ρ : Renaming} {body other : Body} {events : List Event} {atLineStart : Bool},
    body.Renames library ρ other → nested body = .ok (events, atLineStart) →
    ∃ others, otherNested other = .ok (others, atLineStart) ∧ Renames ρ events others

namespace Outcome.Renames

theorem done {written others : List Event} {after : State}
    (events : Stencil.Renames ρ written others) (states : next.Renames ρ after) :
    Outcome.Renames ρ (.ok (written, next)) (.ok (others, after)) := by
  intro _ _ same
  cases same
  exact ⟨others, after, rfl, events, states⟩

theorem failed {error : CompileError} {outcome : Outcome} :
    Outcome.Renames ρ (.error error) outcome := by
  intro _ _ same
  cases same

theorem silent (states : s.Renames ρ other) :
    Outcome.Renames ρ (.ok ([], s)) (.ok ([], other)) := .done .nil states

theorem bind {α β : Type} {first : Except CompileError α} {second : Except CompileError β}
    {further : α → Outcome} {otherwise : β → Outcome}
    (each : ∀ a, first = .ok a →
      ∃ b, second = .ok b ∧ Outcome.Renames ρ (further a) (otherwise b)) :
    Outcome.Renames ρ (first >>= further) (second >>= otherwise) := by
  intro events next done
  obtain ⟨a, here, done⟩ := bind_eq_ok.mp done
  obtain ⟨b, there, renames⟩ := each a here
  obtain ⟨others, after, otherDone, related⟩ := renames events next done
  exact ⟨others, after, bind_eq_ok.mpr ⟨b, there, otherDone⟩, related⟩

end Outcome.Renames

section

variable (like : body.Matches setting.library otherBody) (renames : s.Renames ρ other)

include like renames in
theorem indentLine_renames :
    Stencil.Renames ρ (indentLine body s).1 (indentLine otherBody other).1 ∧
      (indentLine body s).2.Renames ρ (indentLine otherBody other).2 := by
  refine ⟨?_, { renames with atLineStart := rfl }⟩
  simp only [indentLine, renames.atLineStart, like.indent]
  split
  · exact .call (.literal body.indent) .nil
  · exact .nil

include like renames in
theorem writeText_renames (text : String) :
    Outcome.Renames ρ (.ok (writeText body s text)) (.ok (writeText otherBody other text)) := by
  obtain ⟨events, states⟩ := indentLine_renames like renames
  exact .done (events.append (.call (.literal text) .nil)) states

include renames in
theorem meaning_renames {name : String} {purpose : NameUse} {position : Position} {result : Meaning}
    {names : FreshNames} (otherBody : Body) (otherPosition : Position)
    (done : meaning setting body s name purpose position = .ok (result, names)) :
    ∃ later, meaning setting otherBody other name purpose otherPosition =
      .ok (result.rename ρ, later) ∧ ρ.Follows names later := by
  obtain ⟨later, means, follows⟩ := Scope.meaning_rename renames.names (meaning_ok done)
  refine ⟨later, ?_, follows⟩
  rw [meaning, renames.scope, means]
  rfl

include like renames in
theorem variableTag_renames (name : String) (purpose : NameUse) (escaping : Escaping)
    (position otherPosition : Position) :
    Outcome.Renames ρ (variableTag setting body s name purpose escaping position)
      (variableTag setting otherBody other name purpose escaping otherPosition) := by
  refine .bind fun ⟨found, names⟩ means => ?_
  obtain ⟨later, otherMeans, follows⟩ := meaning_renames renames otherBody otherPosition means
  have states : State.Renames ρ { s with names } { other with names := later } :=
    { renames with names := follows }
  refine ⟨_, otherMeans, ?_⟩
  cases found with
  | value found =>
      obtain ⟨written, after⟩ := indentLine_renames like states
      exact .done (written.append (.call (.value found.expr escaping) .nil)) after
  | _ => exact .silent states

include renames in
theorem openTag_renames (kind : TagKind) (name : String) (position otherPosition : Position)
    {guards otherGuards : Nat} {scope otherScope : Scope} (entered : otherGuards = guards)
    (inside : otherScope = scope.rename ρ) :
    (openTag s kind name position guards scope).Renames ρ
      (openTag other kind name otherPosition otherGuards otherScope) :=
  { renames with
    scope := inside
    openTags := .cons ⟨rfl, rfl, entered, renames.scope, renames.names⟩ renames.openTags }

include renames in
theorem sectionTag_renames (name : String) (position otherPosition : Position) :
    Outcome.Renames ρ (sectionTag setting body s name position)
      (sectionTag setting otherBody other name otherPosition) := by
  refine .bind fun ⟨found, names⟩ means => ?_
  obtain ⟨later, otherMeans, follows⟩ := meaning_renames renames otherBody otherPosition means
  have states : State.Renames ρ { s with names } { other with names := later } :=
    { renames with names := follows }
  refine ⟨_, otherMeans, ?_⟩
  cases found with
  | openSection guards scope =>
      exact .done (.enterSections guards)
        (openTag_renames states _ _ _ _ (List.length_map (Guard.rename ρ)) rfl)
  | lambda decl => exact .silent { states with mode := .lambda _ otherPosition }
  | _ => exact .silent states

include renames in
theorem invertedTag_renames (name : String) (position otherPosition : Position) :
    Outcome.Renames ρ (invertedTag setting body s name position)
      (invertedTag setting otherBody other name otherPosition) := by
  refine .bind fun ⟨found, names⟩ means => ?_
  obtain ⟨later, otherMeans, follows⟩ := meaning_renames renames otherBody otherPosition means
  have states : State.Renames ρ { s with names } { other with names := later } :=
    { renames with names := follows }
  refine ⟨_, otherMeans, ?_⟩
  cases found with
  | openInverted guard scope =>
      exact .done (.call (.enterInverted guard) .nil) (openTag_renames states _ _ _ _ rfl rfl)
  | _ => exact .silent states

include renames in
theorem closeTag_renames (name : String) (position otherPosition : Position) :
    Outcome.Renames ρ (closeTag body s name position)
      (closeTag otherBody other name otherPosition) := by
  have tags := renames.openTags
  unfold closeTag
  cases around : s.openTags with
  | nil => exact .failed
  | cons tag outer =>
      rw [around] at tags
      obtain ⟨otherTag, otherOuter, same, further, otherAround⟩ :=
        List.forall₂_cons_left_iff.mp tags
      rw [otherAround]
      dsimp only
      rw [same.name, same.kind, same.guards]
      split
      · exact .failed
      · refine .done ?_ { renames with
          scope := same.scope
          names := same.names
          openTags := further }
        cases tag.kind <;> first | exact .exitSections _ | exact .call _ .nil

end

variable (like : body.Matches setting.library otherBody) (renames : s.Renames ρ other)
  (respects : ∀ nested ∈ nested?, ∃ otherNested ∈ otherNested?,
    RespectsNames setting.library nested otherNested)

include like renames respects in
theorem includeTemplate_renames (kind : FrameKind) (name : String)
    (position otherPosition : Position) (indent : String) {blocks otherBlocks : GivenBlocks}
    (given : otherBlocks.map (List.map GivenBlock.unplaced) =
      blocks.map (List.map GivenBlock.unplaced)) :
    Outcome.Renames ρ (includeTemplate setting nested? body s kind name position indent blocks)
      (includeTemplate setting otherNested? otherBody other kind name otherPosition indent
        otherBlocks) := by
  unfold includeTemplate
  cases nested? with
  | none => exact .failed
  | some nested =>
      obtain ⟨otherNested, rfl, alike⟩ := respects nested rfl
      refine .bind fun template fetched => ?_
      refine ⟨template, like.stack.fetch fetched otherPosition, ?_⟩
      split
      · exact .failed
      · next allowed =>
          have otherAllowed : ¬(decide (kind ≠ .parent) &&
              otherBody.stack.contains template.name) = true := by
            rw [Bool.and_eq_true] at allowed ⊢
            exact mt (And.imp_right (like.stack.contains _)) allowed
          rw [if_neg otherAllowed]
          refine .bind fun ⟨events, atLineStart⟩ compiled => ?_
          have entered : Body.Renames setting.library ρ
              { stack := body.stack.enter kind template.name
                scope := s.scope
                names := s.names
                indent := body.indent ++ indent
                blocks
                atLineStart := s.atLineStart
                source := template.source }
              { stack := otherBody.stack.enter kind template.name
                scope := other.scope
                names := other.names
                indent := otherBody.indent ++ indent
                blocks := otherBlocks
                atLineStart := other.atLineStart
                source := template.source } :=
            { like := ⟨like.stack.enter kind _, congrArg (· ++ indent) like.indent, given⟩
              start := ⟨renames.scope, renames.names, renames.atLineStart, rfl, .nil, .normal⟩
              source := rfl }
          obtain ⟨others, otherCompiled, written⟩ := alike entered compiled
          refine ⟨(others, atLineStart), otherCompiled, ?_⟩
          exact .done (.call (.enterPartial name) (written.append (.call .exitPartial .nil)))
            { renames with atLineStart := rfl }

theorem lambdaBody_renames {nested otherNested : Nested}
    (respects : RespectsNames setting.library nested otherNested) {held : LambdaSection}
    (position : Position) {stack otherStack : TemplateStack}
    (serves : setting.library.Serves stack otherStack) {scope : Scope}
    {names otherNames : FreshNames} (follows : ρ.Follows names otherNames) {inner : List Event}
    (done : (do
      let source ← lambdaTemplate setting stack held
      let (events, _) ← nested
        { stack, scope, names, indent := "", blocks := [], atLineStart := true, source }
      return events) = .ok inner) :
    ∃ others, (do
      let source ← lambdaTemplate setting otherStack { held with position }
      let (events, _) ← otherNested
        { stack := otherStack, scope := scope.rename ρ, names := otherNames, indent := "",
          blocks := [], atLineStart := true, source }
      return events) = .ok others ∧ Renames ρ inner others := by
  obtain ⟨source, found, done⟩ := bind_eq_ok.mp done
  obtain ⟨⟨events, atLineStart⟩, compiled, done⟩ := bind_eq_ok.mp done
  cases done
  have located : lambdaTemplate setting otherStack { held with position } = .ok source := by
    unfold lambdaTemplate at found ⊢
    dsimp only
    split at found
    · exact found
    · obtain ⟨template, fetched, same⟩ := map_eq_ok.mp found
      exact map_eq_ok.mpr ⟨template, serves.fetch fetched position, same⟩
    · exact found
  have entered : Body.Renames setting.library ρ
      { stack, scope, names, indent := "", blocks := [], atLineStart := true, source }
      { stack := otherStack, scope := scope.rename ρ, names := otherNames, indent := "",
        blocks := [], atLineStart := true, source } :=
    { like := ⟨serves, rfl, rfl⟩
      start := ⟨rfl, follows, rfl, rfl, .nil, .normal⟩
      source := rfl }
  obtain ⟨others, otherCompiled, written⟩ := respects entered compiled
  exact ⟨others, by rw [located, ok_bind, otherCompiled]; rfl, written⟩

include like renames in
theorem lambdaIndent_renames (owed : Bool) :
    Stencil.Renames ρ (if owed then (([] : List Event), s) else indentLine body s).1
        (if owed then (([] : List Event), other) else indentLine otherBody other).1 ∧
      State.Renames ρ (if owed then (([] : List Event), s) else indentLine body s).2
        (if owed then (([] : List Event), other) else indentLine otherBody other).2 := by
  cases owed with
  | true => exact ⟨.nil, renames⟩
  | false => exact indentLine_renames like renames

include like renames respects in
theorem callLambda_renames (held : LambdaSection) (position : Position) (standalone : Bool) :
    Outcome.Renames ρ (callLambda setting nested? body s held standalone)
      (callLambda setting otherNested? otherBody other { held with position } standalone) := by
  unfold callLambda
  cases nested? with
  | none => exact .failed
  | some nested =>
      obtain ⟨otherNested, rfl, alike⟩ := respects nested rfl
      have serves := like.stack.enter .lambda held.name
      dsimp only
      obtain ⟨front, states⟩ := lambdaIndent_renames like renames (standalone && s.atLineStart)
      rw [renames.atLineStart]
      refine .done (front.append ?_) states
      rw [renames.scope, Scope.currentExpr_rename, like.indent]
      cases returns : held.decl.returns with
      | raw => exact .single rfl fun inner done =>
          lambdaBody_renames alike position serves renames.names done
      | model shape =>
          obtain ⟨bound, follows⟩ := renames.names.fresh (show "model" ∈ FreshNames.bases by decide)
          rw [← bound]
          exact .single rfl fun inner done =>
            lambdaBody_renames alike position serves follows done

include like renames respects in
theorem plainTag_renames (kind : TagKind) (name : String) (position otherPosition : Position) :
    Outcome.Renames ρ (plainTag setting nested? body s kind name position)
      (plainTag setting otherNested? otherBody other kind name otherPosition) := by
  have states : State.Renames ρ { s with pendingIndent := none }
      { other with pendingIndent := none } := { renames with pendingIndent := rfl }
  unfold plainTag
  rw [renames.pendingIndent]
  cases kind with
  | escaped | unescaped => exact variableTag_renames like states _ _ _ _ _
  | openSection => exact sectionTag_renames states _ _ _
  | openInverted => exact invertedTag_renames states _ _ _
  | close => exact closeTag_renames states _ _ _
  | inclusion => exact includeTemplate_renames like states respects _ _ _ _ _ rfl
  | openParent => exact .silent { states with mode := .parent _ rfl }
  | openBlock =>
      exact .done (.call (.enterBlock name) .nil)
        (openTag_renames states _ _ _ _ rfl renames.scope)

include like renames respects in
theorem readPlain_renames (same : t.unplaced = otherToken.unplaced) :
    Outcome.Renames ρ (readPlain setting nested? body s t)
      (readPlain setting otherNested? otherBody other otherToken) := by
  have role : otherToken.role = t.role := (congrArg LineToken.role same).symm
  have kind : otherToken.token.kind = t.token.kind := (congrArg (·.token.kind) same).symm
  have newline : otherToken.token.isNewline = t.token.isNewline := by
    simp only [Token.isNewline, kind]
  unfold readPlain
  rw [role, kind, newline]
  cases t.role with
  | ignore =>
      dsimp only
      split
      · exact .silent { renames with atLineStart := rfl }
      · exact .silent renames
  | indent =>
      dsimp only
      split
      · exact .silent { renames with pendingIndent := rfl }
      · exact .silent renames
  | eof => exact .silent renames
  | normal =>
      dsimp only
      cases t.token.kind with
      | text text | whitespace text => exact writeText_renames like renames text
      | special mark => exact writeText_renames like renames mark.text
      | newline ending =>
          exact .done (.call (.literal ending.text) .nil) { renames with atLineStart := rfl }
      | comment _ | delimiters _ _ | eof => exact .silent renames
      | tag tagKind name => exact plainTag_renames like renames respects _ _ _ _

include like renames respects in
theorem readParent_renames {call otherCall : ParentCall} (indent : String)
    {token otherToken : Token} (sameCall : call.unplaced = otherCall.unplaced)
    (same : token.unplaced = otherToken.unplaced) :
    Outcome.Renames ρ (readParent setting nested? body s call indent token)
      (readParent setting otherNested? otherBody other otherCall indent otherToken) := by
  have pushed := (ParentCall.push_unplaced otherCall otherToken).symm
  rw [← sameCall, ← same, ParentCall.push_unplaced] at pushed
  unfold readParent
  cases taken : call.push token with
  | error problem => exact .failed
  | ok result =>
      obtain ⟨last, closed⟩ := result
      rw [taken] at pushed
      obtain ⟨⟨otherLast, otherClosed⟩, otherTaken, alike⟩ := map_eq_ok.mp pushed
      obtain ⟨sameLast, rfl⟩ := Prod.mk.inj alike
      rw [otherTaken]
      cases otherClosed with
      | false => exact .silent { renames with mode := .parent indent sameLast.symm }
      | true =>
          have states : State.Renames ρ { s with mode := .normal } { other with mode := .normal } :=
            { renames with mode := .normal }
          have parent : otherLast.parent = last.parent :=
            congrArg (fun call => call.parent) sameLast
          have given : otherLast.givenBlocks.map GivenBlock.unplaced =
              last.givenBlocks.map GivenBlock.unplaced := by
            rw [ParentCall.givenBlocks, ParentCall.givenBlocks, List.map_reverse, List.map_reverse]
            exact congrArg (fun call => call.blocks.reverse) sameLast
          dsimp only
          rw [parent]
          refine includeTemplate_renames like states respects _ _ _ _ _ ?_
          rw [List.map_cons, List.map_cons, given, like.blocks]

include like renames respects in
theorem readLambda_renames (held : LambdaSection) (position : Position)
    (same : t.unplaced = otherToken.unplaced) (closing standalone : Bool) :
    Outcome.Renames ρ (readLambda setting nested? body s held t closing standalone)
      (readLambda setting otherNested? otherBody other { held with position } otherToken closing
        standalone) := by
  have role : otherToken.role = t.role := (congrArg LineToken.role same).symm
  have kind : otherToken.token.kind = t.token.kind := (congrArg (·.token.kind) same).symm
  have raw : otherToken.token.raw = t.token.raw := (congrArg (·.token.raw) same).symm
  have keep (text : String) (depth : Nat) : Outcome.Renames ρ
      (.ok ([], { s with mode := .lambda { held with body := text, depth } }))
      (.ok ([], { other with mode := .lambda { held with position, body := text, depth } })) :=
    .silent { renames with mode := .lambda { held with body := text, depth } position }
  have states : State.Renames ρ { s with mode := .normal } { other with mode := .normal } :=
    { renames with mode := .normal }
  unfold readLambda
  dsimp only
  rw [role, kind, raw]
  split
  · exact .silent renames
  · split
    · split
      · exact keep _ _
      · split
        · exact .failed
        · exact callLambda_renames like states respects held position _
    · split
      · exact keep _ _
      · split
        · exact .silent renames
        · exact keep _ _
    · exact .failed
    · split
      · exact .silent renames
      · exact keep _ _

include like renames respects in
theorem readToken_renames (same : t.unplaced = otherToken.unplaced) (closing standalone : Bool) :
    Outcome.Renames ρ (readToken setting nested? body closing standalone s t)
      (readToken setting otherNested? otherBody closing standalone other otherToken) := by
  have alike := renames.mode
  unfold readToken
  cases mode : s.mode with
  | normal =>
      rw [mode] at alike
      cases otherMode : other.mode <;> rw [otherMode] at alike <;> cases alike
      exact readPlain_renames like renames respects same
  | parent call indent =>
      rw [mode] at alike
      cases otherMode : other.mode <;> rw [otherMode] at alike <;> cases alike
      exact readParent_renames like renames respects indent ‹_› (congrArg LineToken.token same)
  | lambda held =>
      rw [mode] at alike
      cases otherMode : other.mode <;> rw [otherMode] at alike <;> cases alike
      exact readLambda_renames like renames respects held _ same closing standalone

theorem runAll_renames {α : Type} {step otherStep : State → α → Outcome} {items others : List α}
    (each : List.Forall₂ (fun item otherItem => ∀ {s other : State}, s.Renames ρ other →
      Outcome.Renames ρ (step s item) (otherStep other otherItem)) items others)
    (renames : s.Renames ρ other) :
    Outcome.Renames ρ (runAll step s items) (runAll otherStep other others) := by
  induction each generalizing s other with
  | nil => exact .silent renames
  | cons first _ ih =>
      unfold runAll
      refine .bind ?_
      rintro ⟨events, middle⟩ here
      obtain ⟨others, otherMiddle, there, written, between⟩ := first renames events middle here
      refine ⟨(others, otherMiddle), there, .bind ?_⟩
      rintro ⟨more, last⟩ further
      obtain ⟨otherMore, otherLast, beyond, rest, after⟩ := ih between more last further
      exact ⟨(otherMore, otherLast), beyond, .done (written.append rest) after⟩

theorem closesLambda_renames {group otherGroup : LineGroup} {mode otherMode : Mode}
    (alike : mode.Alike otherMode)
    (same : group.map LineToken.unplaced = otherGroup.map LineToken.unplaced) :
    closesLambda otherMode otherGroup = closesLambda mode group := by
  have each (name : String) (group : LineGroup) :
      (group.all fun t => t.role ≠ .normal || t.token.kind = .tag .close name) =
        (group.map LineToken.unplaced).all fun t =>
          t.role ≠ .normal || t.token.kind = .tag .close name := by
    rw [List.all_map]
    rfl
  cases alike with
  | normal | parent _ _ => rfl
  | lambda held position =>
      simp only [closesLambda]
      rw [each held.name group, each held.name otherGroup, same]

include like renames respects in
theorem readGroup_renames {group otherGroup : LineGroup}
    (same : group.map LineToken.unplaced = otherGroup.map LineToken.unplaced) :
    Outcome.Renames ρ (readGroup setting nested? body s group)
      (readGroup setting otherNested? otherBody other otherGroup) := by
  have length : otherGroup.length = group.length := by
    simpa using (congrArg List.length same).symm
  have each (closing standalone : Bool) : List.Forall₂ (fun t otherToken =>
      ∀ {s other : State}, s.Renames ρ other →
        Outcome.Renames ρ (readToken setting nested? body closing standalone s t)
          (readToken setting otherNested? otherBody closing standalone other otherToken))
      group otherGroup := by
    rw [← List.forall₂_eq_eq_eq, List.forall₂_map_left_iff, List.forall₂_map_right_iff] at same
    exact same.imp fun t otherToken same _ _ renames =>
      readToken_renames like renames respects same closing standalone
  unfold readGroup
  rw [closesLambda_renames renames.mode same, length]
  refine .bind fun ⟨events, last⟩ here => ?_
  obtain ⟨others, otherLast, there, written, after⟩ :=
    runAll_renames (each _ _) renames events last here
  refine ⟨(others, otherLast), there, .done written ?_⟩
  have alike := after.mode
  unfold endGroup
  cases mode : last.mode <;> rw [mode] at alike <;> cases otherMode : otherLast.mode <;>
    rw [otherMode] at alike <;> cases alike
  · exact after
  · exact after
  · next held position =>
      exact { after with mode := .lambda { held with opening := false } position }

theorem checkClosed_renames (renames : s.Renames ρ other) (closed : checkClosed body s = .ok ()) :
    checkClosed otherBody other = .ok () := by
  obtain ⟨mode, openTags⟩ := checkClosed_iff.mp closed
  have alike := renames.mode
  have tags := renames.openTags
  rw [mode] at alike
  rw [openTags, List.forall₂_nil_left_iff] at tags
  refine checkClosed_iff.mpr ⟨?_, tags⟩
  cases otherMode : other.mode <;> rw [otherMode] at alike <;> cases alike

include like respects in
theorem readGroups_renames (renames : s.Renames ρ other) {groups otherGroups : List LineGroup}
    (same : groups.map (List.map LineToken.unplaced) =
      otherGroups.map (List.map LineToken.unplaced)) :
    Outcome.Renames ρ (runAll (readGroup setting nested? body) s groups)
      (runAll (readGroup setting otherNested? otherBody) other otherGroups) := by
  refine runAll_renames ?_ renames
  rw [← List.forall₂_eq_eq_eq, List.forall₂_map_left_iff, List.forall₂_map_right_iff] at same
  exact same.imp fun group otherGroup same _ _ renames =>
    readGroup_renames like renames respects same

theorem groups_renames (renames : body.Renames setting.library ρ otherBody) {lines : List LineGroup}
    (grouped : groups body = .ok lines) :
    ∃ otherLines, groups otherBody = .ok otherLines ∧
      lines.map (List.map LineToken.unplaced) = otherLines.map (List.map LineToken.unplaced) := by
  unfold groups at grouped ⊢
  rw [renames.source]
  split at grouped
  · cases grouped
  · next tokens read =>
      cases grouped
      obtain ⟨others, elsewhere, same⟩ := Lexeme.tokens_elsewhere read
        (Cursor.position otherBody.stack.top.name _) .start
      rw [tokenize, elsewhere]
      refine ⟨_, rfl, ?_⟩
      rw [← LineClassifier.groupsOf_unplaced, ← LineClassifier.groupsOf_unplaced,
        ← BlockReplacement.replaceAll_unplaced, ← BlockReplacement.replaceAll_unplaced, same]
      simp only [BlockReplacement.unplaced, BlockReplacement.start, renames.like.blocks]

theorem compileWith_renames (respects : ∀ nested ∈ nested?, ∃ otherNested ∈ otherNested?,
      RespectsNames setting.library nested otherNested) :
    RespectsNames setting.library (compileWith setting nested?)
      (compileWith setting otherNested?) := by
  intro ρ body other events atLineStart renames done
  obtain ⟨lines, grouped, done⟩ := bind_eq_ok.mp done
  obtain ⟨⟨written, last⟩, run, done⟩ := bind_eq_ok.mp done
  obtain ⟨⟨⟩, closed, done⟩ := bind_eq_ok.mp done
  cases done
  obtain ⟨otherLines, otherGrouped, same⟩ := groups_renames renames grouped
  obtain ⟨others, otherLast, otherRun, related, states⟩ :=
    readGroups_renames renames.like respects renames.start same events last run
  refine ⟨others, ?_, related⟩
  simp only [compileWith, otherGrouped, otherRun, ok_bind, checkClosed_renames states closed,
    states.atLineStart, pure_eq_ok]

/-- Bodies are compiled alike wherever they stand, whatever the variables in scope are called, if
there is as much room there. -/
theorem compileBody_renames (setting : Setting) {room otherRoom : Nat} (enough : room ≤ otherRoom) :
    RespectsNames setting.library (compileBody setting room) (compileBody setting otherRoom) := by
  induction room generalizing otherRoom with
  | zero => cases otherRoom <;> exact compileWith_renames fun nested none => by cases none
  | succ room ih =>
      obtain _ | otherRoom := otherRoom
      · cases enough
      · refine compileWith_renames fun nested given => ?_
        cases given
        exact ⟨_, rfl, ih (Nat.le_of_succ_le_succ enough)⟩

end Compile

end Stencil
