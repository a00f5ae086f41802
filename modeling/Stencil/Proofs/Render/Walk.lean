import Stencil.Proofs.Compile.Groups
import Stencil.Proofs.Compile.Run
import Stencil.Proofs.Render.Joined

/-!
Reading tokens directly. A reader says what names mean in states of some kind, and walks the tokens
with a state instead of compiling them. Main statement: what a reader writes is what the compiled
program writes, if its states follow the scope and the variables of the program.
-/

namespace Stencil

def cutAtClose (depth : Nat) : List LineToken → Option (List LineToken × List LineToken)
  | [] => none
  | t :: rest =>
      match t.tag? with
      | some (.close, _) =>
          match depth with
          | 0 => some ([], rest)
          | outer + 1 => (cutAtClose outer rest).map fun (inner, after) => (t :: inner, after)
      | some (kind, _) =>
          (cutAtClose (if kind.isOpening then depth + 1 else depth) rest).map
            fun (inner, after) => (t :: inner, after)
      | none => (cutAtClose depth rest).map fun (inner, after) => (t :: inner, after)

section

variable {depth : Nat} {t : LineToken} {kind : TagKind} {name : String}

theorem cutAtClose_other (plain : t.tag? = none) (depth : Nat) (rest : List LineToken) :
    cutAtClose depth (t :: rest) =
      (cutAtClose depth rest).map fun (inner, after) => (t :: inner, after) := by
  simp only [cutAtClose, plain]

theorem cutAtClose_writing {purpose : NameUse} {escaping : Escaping}
    (tag : t.tag? = some (kind, name)) (writing : kind.writing? = some (purpose, escaping))
    (depth : Nat) (rest : List LineToken) :
    cutAtClose depth (t :: rest) =
      (cutAtClose depth rest).map fun (inner, after) => (t :: inner, after) := by
  cases kind <;> simp_all [cutAtClose, TagKind.writing?, TagKind.isOpening]

theorem cutAtClose_open (tag : t.tag? = some (kind, name)) (opening : kind.isOpening = true)
    (depth : Nat) (rest : List LineToken) :
    cutAtClose depth (t :: rest) =
      (cutAtClose (depth + 1) rest).map fun (inner, after) => (t :: inner, after) := by
  cases kind <;> simp_all [cutAtClose, TagKind.isOpening]

theorem cutAtClose_close (tag : t.tag? = some (.close, name)) (depth : Nat)
    (rest : List LineToken) :
    cutAtClose (depth + 1) (t :: rest) =
      (cutAtClose depth rest).map fun (inner, after) => (t :: inner, after) := by
  simp only [cutAtClose, tag]

theorem cutAtClose_here (tag : t.tag? = some (.close, name)) (rest : List LineToken) :
    cutAtClose 0 (t :: rest) = some ([], rest) := by
  simp only [cutAtClose, tag]

end

theorem cutAtClose_length {depth : Nat} {tokens inner after : List LineToken}
    (cut : cutAtClose depth tokens = some (inner, after)) :
    inner.length + after.length < tokens.length := by
  induction tokens generalizing depth inner after with
  | nil => simp [cutAtClose] at cut
  | cons t rest ih =>
      have longer {deeper : Nat}
          (cut : (cutAtClose deeper rest).map (fun (inner, after) => (t :: inner, after)) =
            some (inner, after)) : inner.length + after.length < (t :: rest).length := by
        obtain ⟨⟨body, behind⟩, deeper, same⟩ := Option.map_eq_some_iff.mp cut
        simp only [Prod.mk.injEq] at same
        obtain ⟨rfl, rfl⟩ := same
        have shorter := ih deeper
        simp only [List.length_cons]
        omega
      simp only [cutAtClose] at cut
      split at cut
      · split at cut
        · simp only [Option.some.injEq, Prod.mk.injEq] at cut
          obtain ⟨rfl, rfl⟩ := cut
          simp
        · exact longer cut
      · exact longer cut
      · exact longer cut

/-- What names mean in states of some kind: the value that a variable tag writes, the states that
the body of a section is read in, one after another, and those for an inverted section. -/
structure Reading (σ : Type) where
  value : σ → String → Option Json
  enter : σ → String → Option (List σ)
  invert : σ → String → Option (List σ)

namespace Reading

variable {σ : Type}

def opening (reading : Reading σ) (state : σ) : TagKind → String → Option (List σ)
  | .openSection, name => reading.enter state name
  | .openInverted, name => reading.invert state name
  | _, _ => none

/-- Walks tokens with a state, and gives the text that they write. There is none where the tags do
not nest, where a name means nothing, or at tags of other kinds. -/
def walk (reading : Reading σ) (renderer : Renderer) (state : σ) (tokens : List LineToken) :
    Option String :=
  match tokens with
  | [] => some ""
  | t :: rest =>
      match t.tag? with
      | none => do return t.text ++ (← walk reading renderer state rest)
      | some (.escaped, name) => do
          let value ← reading.value state name
          return renderer.write value.text .escaped ++ (← walk reading renderer state rest)
      | some (.unescaped, name) => do
          let value ← reading.value state name
          return renderer.write value.text .raw ++ (← walk reading renderer state rest)
      | some (.openSection, name) =>
          match _cut : cutAtClose 0 rest with
          | none => none
          | some (inner, after) => do
              let texts ← (← reading.enter state name).mapM fun deeper =>
                walk reading renderer deeper inner
              return String.join texts ++ (← walk reading renderer state after)
      | some (.openInverted, name) =>
          match _cut : cutAtClose 0 rest with
          | none => none
          | some (inner, after) => do
              let texts ← (← reading.invert state name).mapM fun deeper =>
                walk reading renderer deeper inner
              return String.join texts ++ (← walk reading renderer state after)
      | some _ => none
  termination_by tokens.length
  decreasing_by
    all_goals first
      | simp only [List.length_cons]; omega
      | have shorter := cutAtClose_length _cut
        simp only [List.length_cons]
        omega

section

variable {reading : Reading σ} {renderer : Renderer} {state : σ} {t : LineToken} {name : String}
  {rest inner after : List LineToken} {states : List σ} {texts : List String}

theorem walk_nil : reading.walk renderer state [] = some "" := by rw [walk]

theorem walk_other (plain : t.tag? = none) :
    reading.walk renderer state (t :: rest) =
      (reading.walk renderer state rest).map (t.text ++ ·) := by
  rw [walk]
  simp only [plain]
  cases reading.walk renderer state rest <;> rfl

theorem walk_value {kind : TagKind} {purpose : NameUse} {escaping : Escaping} {value : Json}
    (tag : t.tag? = some (kind, name)) (writing : kind.writing? = some (purpose, escaping))
    (found : reading.value state name = some value) :
    reading.walk renderer state (t :: rest) =
      (reading.walk renderer state rest).map (renderer.write value.text escaping ++ ·) := by
  rw [walk]
  cases kind with
  | escaped | unescaped =>
      cases writing
      simp only [tag, found]
      cases reading.walk renderer state rest <;> rfl
  | _ => cases writing

theorem walk_opening {kind : TagKind} (tag : t.tag? = some (kind, name))
    (cut : cutAtClose 0 rest = some (inner, after))
    (entered : reading.opening state kind name = some states)
    (written : states.mapM (fun deeper => reading.walk renderer deeper inner) = some texts) :
    reading.walk renderer state (t :: rest) =
      (reading.walk renderer state after).map (String.join texts ++ ·) := by
  rw [walk]
  cases kind with
  | openSection | openInverted =>
      simp only [opening] at entered
      simp only [tag, entered]
      split
      · next missing => simp [cut] at missing
      · next same =>
          cases cut.symm.trans same
          cases reading.walk renderer state after <;> simp [written]
  | _ => cases entered

theorem walk_opened {kind : TagKind} {steps : List Bindings} {body : List Instruction}
    {text : String} (tag : t.tag? = some (kind, name))
    (cut : cutAtClose 0 rest = some (inner, after))
    (entered : reading.opening state kind name = some states)
    (each : List.Forall₂ (fun step deeper => ∃ text,
      reading.walk renderer deeper inner = some text ∧ renderer.runAll step body = .ok text)
      steps states)
    (walked : reading.walk renderer state after = some text) :
    ∃ texts, steps.mapM (fun step => renderer.runAll step body) = .ok texts ∧
      reading.walk renderer state (t :: rest) = some (String.join texts ++ text) := by
  obtain ⟨texts, run, read⟩ :=
    exists_mapM_eq (each.imp fun _ _ same => same.imp fun _ both => both.symm)
  refine ⟨texts, run, ?_⟩
  rw [walk_opening tag cut entered read, walked]
  rfl

end

/-- Reads a template by itself. -/
def text? (reading : Reading σ) (renderer : Renderer) (state : σ) (template : Template) :
    Option String :=
  match tokenize template.name template.source with
  | .ok tokens => reading.walk renderer state (LineClassifier.groupsOf tokens).flatten
  | .error _ => none

end Reading

namespace Bindings

/-- The variables of each time that guards are passed in order. -/
def passesAll (bindings : Bindings) : List Guard → Except RenderError (List Bindings)
  | [] => .ok [bindings]
  | guard :: guards => do
      return (← (← bindings.passes guard).mapM fun inner => passesAll inner guards).flatten

theorem passesAll_singleton {bindings : Bindings} {guard : Guard} {steps : List Bindings}
    (passed : bindings.passes guard = .ok steps) : bindings.passesAll [guard] = .ok steps := by
  have each : steps.mapM (fun inner => passesAll inner []) = .ok (steps.map fun inner => [inner]) :=
    mapM_eq_ok.mpr (List.forall₂_map_right_iff.mpr (List.forall₂_same.mpr fun _ _ => rfl))
  rw [passesAll, passed, ok_bind, each, ok_bind, pure_eq_ok, ← List.flatMap_def,
    List.flatMap_singleton']

theorem passesAll_cons {bindings : Bindings} {guard : Guard} (guards : List Guard) {once : Bool}
    (passed : bindings.passes guard = .ok (if once then [bindings] else [])) :
    bindings.passesAll (guard :: guards) = if once then bindings.passesAll guards else .ok [] := by
  rw [passesAll, passed, ok_bind]
  cases once with
  | false => rfl
  | true =>
      simp only [if_true, List.mapM_cons, List.mapM_nil]
      cases bindings.passesAll guards with
      | error problem => rfl
      | ok steps => simp

theorem passesAll_truthy {bindings : Bindings} {expr : Expr} {value : Value}
    (evaluated : bindings.eval expr = .ok value) (guards : List Guard) :
    bindings.passesAll (.truthy expr :: guards) =
      if value.isTruthy then bindings.passesAll guards else .ok [] :=
  passesAll_cons guards (by simp only [passes, evaluated, ok_bind, pure_eq_ok])

theorem passesAll_present {bindings : Bindings} {expr : Expr} {value : Value}
    (evaluated : bindings.eval expr = .ok value) (guards : List Guard) :
    bindings.passesAll (.present expr :: guards) =
      if value.isPresent then bindings.passesAll guards else .ok [] :=
  passesAll_cons guards (by simp only [passes, evaluated, ok_bind, pure_eq_ok])

theorem passesAll_addPresent {bindings : Bindings} {expr : Expr} {value : Value}
    (evaluated : bindings.eval expr = .ok value) (guards : List Guard) :
    bindings.passesAll (Scope.addPresent expr guards) =
      if value.isPresent then bindings.passesAll guards else .ok [] := by
  unfold Scope.addPresent
  split
  · next here =>
      obtain ⟨rest, rfl⟩ := List.head?_eq_some_iff.mp here
      rw [passesAll_present evaluated]
      cases value.isPresent <;> rfl
  · exact passesAll_present evaluated guards

end Bindings

theorem Renderer.runAll_nest (renderer : Renderer) {bindings : Bindings} {guards : List Guard}
    {steps : List Bindings} (passed : bindings.passesAll guards = .ok steps)
    (body : List Instruction) :
    renderer.runAll bindings (nest guards body) =
      (steps.mapM fun step => renderer.runAll step body).map String.join := by
  induction guards generalizing bindings steps with
  | nil =>
      cases passed
      simp only [nest, List.mapM_cons, List.mapM_nil]
      cases renderer.runAll bindings body with
      | error problem => rfl
      | ok text => simp [Except.map]
  | cons guard guards ih =>
      obtain ⟨inners, found, further⟩ := bind_eq_ok.mp passed
      obtain ⟨lists, each, same⟩ := bind_eq_ok.mp further
      cases same
      have inner : inners.mapM (fun inner => renderer.runAll inner (nest guards body)) =
          lists.mapM fun list =>
            (list.mapM fun step => renderer.runAll step body).map String.join :=
        mapM_eq_of_forall₂ ((mapM_eq_ok.mp each).imp fun _ _ => ih)
      rw [nest, runAll_singleton, run, found, ok_bind, inner, mapM_map, mapM_flatten]
      cases lists.mapM (List.mapM fun step => renderer.runAll step body) with
      | error problem => rfl
      | ok parts => exact congrArg Except.ok (Text.join_flatten parts).symm

theorem Renderer.run_inverted {renderer : Renderer} {bindings : Bindings} {guard : Guard}
    {body : List Instruction} {steps : List Bindings} {texts : List String}
    (passed : bindings.passes guard = .ok steps)
    (written : (if steps.isEmpty then [bindings] else []).mapM
      (fun step => renderer.runAll step body) = .ok texts) :
    renderer.run bindings (.inverted guard body) = .ok (String.join texts) := by
  simp only [run, passed, ok_bind]
  cases steps with
  | nil =>
      cases mapM_eq_ok.mp written with
      | cons here rest =>
          cases rest
          simpa using here
  | cons step steps =>
      cases mapM_eq_ok.mp written
      rfl

def TagKind.isPlain : TagKind → Bool
  | escaped | unescaped | openSection | openInverted | close => true
  | inclusion | openParent | openBlock => false

theorem TagKind.isPlain_of_isIndented {kind : TagKind} (indented : kind.isIndented = true) :
    kind.isPlain = false := by
  cases kind <;> first | rfl | cases indented

def Token.Plain (allowed : String → Prop) (token : Token) : Prop :=
  ∀ kind name, token.tag? = some (kind, name) → kind.isPlain = true ∧ allowed name

def Template.Plain (allowed : String → Prop) (template : Template) : Prop :=
  ∀ tokens, tokenize template.name template.source = .ok tokens →
    ∀ token ∈ tokens, token.Plain allowed

instance {allowed : String → Prop} [DecidablePred allowed] (token : Token) :
    Decidable (token.Plain allowed) :=
  decidable_of_iff (token.tag?.all (fun (kind, name) => kind.isPlain && allowed name) = true) <| by
    unfold Token.Plain
    rcases token.tag? with _ | ⟨kind, name⟩ <;> simp

instance {allowed : String → Prop} [DecidablePred allowed] (template : Template) :
    Decidable (template.Plain allowed) :=
  decidable_of_iff
    ((tokenize template.name template.source).toOption.all
      (fun tokens => tokens.all fun token => token.Plain allowed) = true) <| by
    unfold Template.Plain
    cases tokenize template.name template.source <;> simp [Except.toOption]

variable {schema : Schema} {allowed : String → Prop} {σ : Type} {reading : Reading σ}
  {renderer : Renderer} {R : Scope → FreshNames → Bindings → σ → Prop}

theorem LineToken.plain_of_tag? {t : LineToken} {kind : TagKind} {name : String}
    (plain : t.token.Plain allowed) (tag : t.tag? = some (kind, name)) :
    kind.isPlain = true ∧ allowed name := by
  unfold LineToken.tag? at tag
  split at tag
  · exact plain kind name tag
  · cases tag

theorem LineToken.not_special {t : LineToken} {kind : TagKind} {name : String}
    (plain : t.token.Plain allowed) (tag : t.tag? = some (kind, name))
    (special : kind.isPlain = false) : False := by
  have known := (plain_of_tag? plain tag).1
  rw [special] at known
  cases known

/-- That the states of a reader follow the scopes and the variables of the compiled program, as the
relation `R` says: names mean the same in both. -/
structure Follows (schema : Schema) (allowed : String → Prop) (reading : Reading σ)
    (R : Scope → FreshNames → Bindings → σ → Prop) : Prop where
  value : ∀ {scope names after bindings state kind name purpose escaping found},
    R scope names bindings state → allowed name →
    TagKind.writing? kind = some (purpose, escaping) →
    scope.meaning schema name purpose names = .ok (.value found, after) →
    (∃ value json, bindings.eval found.expr = .ok value ∧ reading.value state name = some json ∧
      value.text = json.text) ∧ R scope after bindings state
  enter : ∀ {scope names after bindings state name guards inside},
    R scope names bindings state → allowed name →
    scope.meaning schema name .openSection names = .ok (.openSection guards inside, after) →
    (∃ steps states, bindings.passesAll guards = .ok steps ∧
      reading.enter state name = some states ∧ List.Forall₂ (R inside after) steps states) ∧
      R scope after bindings state
  invert : ∀ {scope names after bindings state name guard inside},
    R scope names bindings state → allowed name →
    scope.meaning schema name .openInverted names = .ok (.openInverted guard inside, after) →
    (∃ steps states, bindings.passes guard = .ok steps ∧ reading.invert state name = some states ∧
      List.Forall₂ (R inside after) (if steps.isEmpty then [bindings] else []) states) ∧
      R scope after bindings state

namespace Compile.Derives

variable {indent : String} {scope : Scope} {names last : FreshNames} {tokens : List LineToken}
  {instructions : List Instruction}

theorem cutAtClose (derives : Derives schema indent scope names tokens instructions last)
    (plain : ∀ t ∈ tokens, t.token.Plain allowed) (lambdas : schema.lambdas = []) (depth : Nat)
    (more : List LineToken) :
    Stencil.cutAtClose depth (tokens ++ more) =
      (Stencil.cutAtClose depth more).map fun (inner, after) => (tokens ++ inner, after) := by
  -- A body is cut within what is around it, so the depth and what follows must vary.
  induction derives generalizing depth more with
  | nil => simp
  | indent _ _ ih => exact ih plain depth more
  | silent tag _ _ ih =>
      obtain ⟨-, rest⟩ := List.forall_mem_cons.mp plain
      rw [List.cons_append, cutAtClose_other tag, ih rest, Option.map_map]
      rfl
  | text tag _ ih =>
      obtain ⟨-, rest⟩ := List.forall_mem_cons.mp plain
      rw [List.cons_append, cutAtClose_other tag, ih rest, Option.map_map]
      rfl
  | value tag writing _ _ ih =>
      obtain ⟨-, rest⟩ := List.forall_mem_cons.mp plain
      rw [List.cons_append, cutAtClose_writing tag writing, ih rest, Option.map_map]
      rfl
  | openSection tag close _ _ _ ihBody ihRest | openInverted tag close _ _ _ ihBody ihRest =>
      obtain ⟨-, more⟩ := List.forall_mem_cons.mp plain
      obtain ⟨body, more⟩ := List.forall_mem_append.mp more
      obtain ⟨-, rest⟩ := List.forall_mem_cons.mp more
      rw [List.cons_append, List.append_assoc, List.cons_append, cutAtClose_open tag rfl,
        ihBody body, cutAtClose_close close, ihRest rest]
      simp only [Option.map_map]
      congr 1
      funext part
      simp
  | block tag _ _ _ _ _ =>
      exact (LineToken.not_special (plain _ List.mem_cons_self) tag rfl).elim
  | inclusion tag indented _ _ _ _ =>
      have special := TagKind.isPlain_of_isIndented indented
      exact (LineToken.not_special (plain _ List.mem_cons_self) tag special).elim
  | rawLambda _ means _ _ _ _ _ | modelLambda _ means _ _ _ _ _ _ _ =>
      have declared := Scope.meaning_lambda means
      simp [lambdas, Table.get?] at declared

theorem cutAtClose_end {close : LineToken} {name : String}
    (derives : Derives schema indent scope names tokens instructions last)
    (plain : ∀ t ∈ tokens, t.token.Plain allowed) (lambdas : schema.lambdas = [])
    (closing : close.tag? = some (.close, name)) (rest : List LineToken) :
    Stencil.cutAtClose 0 (tokens ++ close :: rest) = some (tokens, rest) := by
  rw [derives.cutAtClose plain lambdas, cutAtClose_here closing]
  simp

theorem walk_eq_runAll {bindings : Bindings} {state : σ}
    (follows : Follows schema allowed reading R) (lambdas : schema.lambdas = [])
    (derives : Derives schema indent scope names tokens instructions last)
    (unindented : indent = "") (plain : ∀ t ∈ tokens, t.token.Plain allowed)
    (related : R scope names bindings state) :
    ∃ text, reading.walk renderer state tokens = some text ∧
      renderer.runAll bindings instructions = .ok text := by
  -- The relation goes from each token to those behind it, and into the body of each section with
  -- the variables that its guards bind.
  induction derives generalizing bindings state with
  | nil => exact ⟨"", Reading.walk_nil, rfl⟩
  | indent filled _ _ =>
      subst unindented
      cases filled
  | silent tag empty _ ih =>
      obtain ⟨-, rest⟩ := List.forall_mem_cons.mp plain
      obtain ⟨text, read, written⟩ := ih unindented rest related
      refine ⟨text, ?_, written⟩
      rw [Reading.walk_other tag, read, empty]
      simp
  | @text _ _ _ _ t _ _ tag _ ih =>
      obtain ⟨-, rest⟩ := List.forall_mem_cons.mp plain
      obtain ⟨text, read, written⟩ := ih unindented rest related
      refine ⟨t.text ++ text, ?_, ?_⟩
      · rw [Reading.walk_other tag, read]
        rfl
      · simp [Renderer.runAll, Renderer.run, written]
  | @value _ _ _ _ _ _ _ _ _ escaping _ _ _ tag writing means _ ih =>
      obtain ⟨here, rest⟩ := List.forall_mem_cons.mp plain
      obtain ⟨⟨value, json, found, read, same⟩, further⟩ :=
        follows.value related (LineToken.plain_of_tag? here tag).2 writing means
      obtain ⟨text, walked, written⟩ := ih unindented rest further
      refine ⟨renderer.write json.text escaping ++ text, ?_, ?_⟩
      · rw [Reading.walk_value tag writing read, walked]
        rfl
      · simp [Renderer.runAll, Renderer.run, found, same, written]
  | openSection tag close means derives _ ihBody ihRest =>
      obtain ⟨here, more⟩ := List.forall_mem_cons.mp plain
      obtain ⟨body, more⟩ := List.forall_mem_append.mp more
      obtain ⟨-, rest⟩ := List.forall_mem_cons.mp more
      obtain ⟨⟨steps, states, passed, entered, each⟩, further⟩ :=
        follows.enter related (LineToken.plain_of_tag? here tag).2 means
      obtain ⟨text, walked, written⟩ := ihRest unindented rest further
      obtain ⟨texts, run, read⟩ := Reading.walk_opened tag
        (derives.cutAtClose_end body lambdas close _) entered
        (each.imp fun _ _ inside => ihBody unindented body inside) walked
      refine ⟨String.join texts ++ text, read, ?_⟩
      rw [Renderer.runAll_append, renderer.runAll_nest passed, run, written]
      rfl
  | openInverted tag close means derives _ ihBody ihRest =>
      obtain ⟨here, more⟩ := List.forall_mem_cons.mp plain
      obtain ⟨body, more⟩ := List.forall_mem_append.mp more
      obtain ⟨-, rest⟩ := List.forall_mem_cons.mp more
      obtain ⟨⟨steps, states, passed, entered, each⟩, further⟩ :=
        follows.invert related (LineToken.plain_of_tag? here tag).2 means
      obtain ⟨text, walked, written⟩ := ihRest unindented rest further
      obtain ⟨texts, run, read⟩ := Reading.walk_opened tag
        (derives.cutAtClose_end body lambdas close _) entered
        (each.imp fun _ _ inside => ihBody unindented body inside) walked
      refine ⟨String.join texts ++ text, read, ?_⟩
      simp only [Renderer.runAll, Renderer.run_inverted passed run, written, ok_bind, pure_eq_ok]
  | block tag _ _ _ _ _ =>
      exact (LineToken.not_special (plain _ List.mem_cons_self) tag rfl).elim
  | inclusion tag indented _ _ _ _ =>
      have special := TagKind.isPlain_of_isIndented indented
      exact (LineToken.not_special (plain _ List.mem_cons_self) tag special).elim
  | rawLambda _ means _ _ _ _ _ | modelLambda _ means _ _ _ _ _ _ _ =>
      have declared := Scope.meaning_lambda means
      simp [lambdas, Table.get?] at declared

end Compile.Derives

/-- A reader that follows the scopes from the root writes what the compiled program writes. -/
theorem Program.compile_follows {library : Library} {options : Options} {template : Template}
    {program : Program} {data : Json} {context : ContextNode} {state : σ}
    (follows : Follows schema allowed reading R) (lambdas : schema.lambdas = [])
    (compiled : Program.compile schema library options template = .ok program)
    (plain : template.Plain allowed)
    (start : R (.root schema.root) .root (.root template.name data context) state) :
    ∃ text, reading.text? renderer state template = some text ∧
      renderer.render program data context = .ok text := by
  obtain ⟨lines, instructions, last, grouped, derives, rfl⟩ := compile_derives compiled
  obtain ⟨tokens, read, rfl⟩ := Compile.groups_root grouped
  have known : ∀ t ∈ (LineClassifier.groupsOf tokens).flatten, t.token.Plain allowed := by
    intro t member
    exact plain tokens read t.token (LineClassifier.token_mem_of_mem_groupsOf member)
  obtain ⟨text, walked, written⟩ := derives.walk_eq_runAll follows lambdas rfl known start
  refine ⟨text, ?_, ?_⟩
  · simp only [Reading.text?, read]
    exact walked
  · exact (renderer.runAll_joined _ instructions).trans written

end Stencil
