import Stencil.Proofs.Compile.Failures
import Stencil.Proofs.Scope.NotFound

/-!
What the error for a name that is not found shows. Main statement: it shows all that the tag stands
in, through all templates on the way to it, innermost first: a line at least for each section, each
inverted section and each lambda of a model, and one for each template.
-/

namespace Stencil

def Token.opensSection (token : Token) : Bool :=
  match token.kind with
  | .tag .openSection _ | .tag .openInverted _ => true
  | _ => false

namespace Compile

/-- What a tag may stand in: the tags of a construct, in its own template or around that in another
one, or a lambda. -/
inductive Surrounding where
  | tag (token : Token)
  | lambda (held : LambdaSection)

def Entry.surroundings (entry : Entry) : List Surrounding :=
  match entry.request with
  | .lambda held _ => .lambda held :: entry.around.map .tag
  | .inclusion _ _ _ _ _ => entry.around.map .tag

namespace Surrounding

/-- Sections, inverted sections and lambdas of models. -/
def counts : Surrounding → Bool
  | tag token => token.opensSection
  | lambda held =>
      match held.decl.returns with
      | .model _ => true
      | .raw => false

/-- The layers that something adds to the scope of the tags inside. -/
inductive Adds : Surrounding → List Layer → Prop where
  | tag {token : Token} {kind : TagKind} {name : String} {added : List Layer} :
      token.kind = .tag kind name → kind.Adds added → Adds (.tag token) added
  | raw {held : LambdaSection} : held.decl.returns = .raw → Adds (.lambda held) []
  | model {held : LambdaSection} {shape : Shape} (name : String) :
      held.decl.returns = .model shape → Adds (.lambda held) [.value ⟨.var name, shape⟩]

theorem Adds.of_counts {around : Surrounding} {added : List Layer} (adds : around.Adds added)
    (counts : around.counts = true) : 1 ≤ added.length := by
  cases adds with
  | tag tag adds =>
      rw [Surrounding.counts, Token.opensSection, tag] at counts
      cases adds with
      | guard _ | value _ | loop _ _ | inverted => exact Nat.succ_pos _
      | block => cases counts
  | raw raw =>
      rw [Surrounding.counts, raw] at counts
      cases counts
  | model _ _ => exact Nat.succ_pos _

theorem countP_le {around : List Surrounding} {added : List (List Layer)}
    (each : List.Forall₂ Adds around added) : around.countP counts ≤ added.flatten.length := by
  induction each with
  | nil => exact Nat.le_refl _
  | @cons first layers around added adds _ ih =>
      rw [List.flatten_cons, List.length_append]
      cases counted : first.counts with
      | true =>
          have one := adds.of_counts counted
          rw [List.countP_cons_of_pos counted]
          omega
      | false =>
          rw [List.countP_cons_of_neg (by simp [counted])]
          omega

end Surrounding

variable {setting : Setting} {nested? : Option Nested} {body inner : Body}

theorem Standing.adds {origin scope : Scope} {tags : List OpenTag}
    {stack : List (Point setting nested? body)} (standing : Standing origin tags scope stack) :
    ∃ added : List (List Layer), scope = added.flatten ++ origin ∧
      List.Forall₂ Surrounding.Adds (stack.map fun q => Surrounding.tag q.token.token) added := by
  induction standing with
  | none => exact ⟨[], rfl, .nil⟩
  | @some tag outer layers stack q _ isAt adds ih =>
      obtain ⟨added, scope, each⟩ := ih
      refine ⟨layers :: added, ?_, .cons (.tag isAt.kind adds) each⟩
      rw [scope, List.flatten_cons, List.append_assoc]

theorem Leaves.scope_eq {read : List LineToken} {s : State}
    (leaves : Leaves setting nested? body read s) (normal : s.mode = .normal) :
    ∃ added : List (List Layer), s.scope = added.flatten ++ body.scope ∧
      List.Forall₂ Surrounding.Adds
        ((Token.stillOpen (read.map LineToken.token)).map Surrounding.tag) added := by
  obtain ⟨stack, awaits, keeps⟩ := leaves
  cases keeps with
  | normal _ standing =>
      obtain ⟨added, scope, each⟩ := standing.adds
      refine ⟨added, scope, ?_⟩
      rwa [awaits.stillOpen, List.map_map]
  | parent other _ _ _ _ _ _ _ => cases normal.symm.trans other
  | lambda other _ _ _ _ _ _ => cases normal.symm.trans other

theorem request?_mode {standalone : Bool} {s answered : State} {t : LineToken} {request : Request}
    (asks : request? body standalone s t = some (request, answered)) : answered.mode = .normal := by
  unfold request? at asks
  split at asks
  · next normal =>
      split at asks <;> cases asks
      exact normal
  · split at asks <;> cases asks
    rfl
  · repeat' split at asks
    all_goals cases asks
    rfl

theorem Point.Enters.scope_eq {p : Point setting nested? body} {entry : Entry}
    (enters : p.Enters entry inner) (collected : body.blocks.AreCollected) :
    ∃ added : List (List Layer), inner.scope = added.flatten ++ body.scope ∧
      List.Forall₂ Surrounding.Adds entry.surroundings added := by
  have behind {request : Request} {answered : State}
      (asks : request? body p.standalone p.state p.token = some (request, answered)) :
      ∃ added : List (List Layer), answered.scope = added.flatten ++ body.scope ∧
        List.Forall₂ Surrounding.Adds (p.opensBehind.map Surrounding.tag) added :=
    (p.leaves_answered (p.leaves collected) asks).scope_eq (request?_mode asks)
  cases enters with
  | inclusion asks _ _ => exact behind asks
  | @lambda held standalone answered source asks _ =>
      obtain ⟨added, scope, each⟩ := behind asks
      cases returns : held.decl.returns with
      | raw =>
          refine ⟨[] :: added, ?_, .cons (.raw returns) each⟩
          rw [Body.enterLambda, returns]
          exact scope
      | model shape =>
          refine ⟨[.value ⟨.var (answered.names.fresh "model").1, shape⟩] :: added, ?_,
            .cons (.model _ returns) each⟩
          rw [Body.enterLambda, returns]
          exact congrArg (List.cons _) scope

/-- The scope of a template, as all that it stands in makes it of the first one. -/
theorem Reaches.scope_eq {most room : Nat} {origin : Body} {path : List Entry}
    (reaches : Reaches setting most origin path room body)
    (collected : origin.blocks.AreCollected) :
    ∃ added : List (List Layer), body.scope = added.flatten ++ origin.scope ∧
      List.Forall₂ Surrounding.Adds (path.flatMap Entry.surroundings) added := by
  induction reaches with
  | origin => exact ⟨[], rfl, .nil⟩
  | enter before enters ih =>
      obtain ⟨outer, scope, around⟩ := ih
      obtain ⟨added, within, each⟩ := enters.scope_eq (before.areCollected collected)
      refine ⟨added ++ outer, ?_, ?_⟩
      · rw [within, scope, List.flatten_append, List.append_assoc]
      · rw [List.flatMap_cons]
        exact List.rel_append each around

section

variable {s : State} {t : LineToken} {name other templates : String} {position place : Position}
  {scopes : List String}

theorem meaning_notFound {purpose : NameUse}
    (failed : meaning setting body s name purpose position =
      .error (.notFound other place scopes templates)) :
    other = name ∧ place = position ∧ scopes = s.scope.describe ∧
      templates = body.stack.describe := by
  unfold meaning at failed
  cases outcome : s.scope.meaning setting.schema name purpose s.names with
  | ok result =>
      rw [outcome] at failed
      cases failed
  | error problem =>
      rw [outcome] at failed
      cases problem with
      | shape message => cases failed
      | notFound found chain =>
          obtain ⟨rfl, rfl⟩ := Scope.meaning_notFound outcome
          cases failed
          exact ⟨rfl, rfl, rfl, rfl⟩

theorem FailsAlone.notFound
    (failed : FailsAlone setting body s t (.notFound other place scopes templates)) :
    s.mode = .normal ∧ (∃ kind, t.token.kind = .tag kind other) ∧ place = t.token.position ∧
      scopes = s.scope.describe ∧ templates = body.stack.describe := by
  cases failed with
  | name normal tag unknown =>
      obtain ⟨rfl, rfl, chain, stack⟩ := meaning_notFound unknown
      exact ⟨normal, ⟨_, tag⟩, rfl, chain, stack⟩

end

/-- What a tag stands in, through all templates on the way to it, innermost first. -/
def Point.surroundings (p : Point setting nested? body) (path : List Entry) : List Surrounding :=
  p.opens.map .tag ++ path.flatMap Entry.surroundings

/-- A compile that ends with the error for a name that is not found has come to a tag of that name,
which fails there. The error shows the scope of the tag from the innermost layer outwards: those
that all that the tag stands in has added, one at least for each section, inverted section and
lambda of a model, and then the data and the root. And it shows the templates on the way to the tag,
the innermost first and the one that the compile began with last. -/
theorem compileInto_notFound {σ : Type} {sink : Sink σ} (sincere : sink.IsSincere) {schema : Schema}
    {library : Library} {options : Options} {template : Template} {st : σ} {name : String}
    {position : Position} {scopes : List String} {templates : String}
    (failed : (compileInto sink schema library options template st).2 =
      some (.notFound name position scopes templates)) :
    ∃ (path : List Entry) (room : Nat) (body : Body)
      (p : Point ⟨schema, library, options⟩ (nestedAt ⟨schema, library, options⟩ room) body)
      (added : List (List Layer)),
      Reaches ⟨schema, library, options⟩ options.maxIncludeDepth (.root schema template) path room
        body ∧
      p.outcome = .error (.notFound name position scopes templates) ∧
      (∃ kind, p.token.token.kind = .tag kind name) ∧ p.token.token.position = position ∧
      scopes = p.state.scope.map Layer.describe ∧
      p.state.scope = added.flatten ++ Scope.root schema.root ∧
      List.Forall₂ Surrounding.Adds (p.surroundings path) added ∧
      (p.surroundings path).countP Surrounding.counts + 2 ≤ scopes.length ∧
      scopes.getLast? = some "root" ∧
      templates = " <- ".intercalate
        (path.map (fun entry => entry.frame.describe) ++ [template.name]) := by
  obtain ⟨path, room, body, reaches, here⟩ := failsHere_of_compileInto sincere failed
  have unblocked : (Body.root schema template).blocks.AreCollected := List.forall_mem_nil _
  have collected := reaches.areCollected unblocked
  obtain ⟨p, outcome, refused⟩ | ⟨lines, events, last, -, -, open?⟩ := here.of_own rfl
  · obtain ⟨normal, tag, place, chain, stack⟩ := refused.notFound
    obtain ⟨inner, scope, each⟩ := (p.leaves collected).scope_eq normal
    obtain ⟨outer, around, all⟩ := reaches.scope_eq unblocked
    have whole : p.state.scope = (inner ++ outer).flatten ++ Scope.root schema.root := by
      rw [scope, around, List.flatten_append, List.append_assoc]
      rfl
    have adds : List.Forall₂ Surrounding.Adds (p.surroundings path) (inner ++ outer) :=
      List.rel_append each all
    refine ⟨path, room, body, p, inner ++ outer, reaches, outcome, tag, place.symm, chain, whole,
      adds, ?_, ?_, ?_⟩
    · have counted := Surrounding.countP_le adds
      rw [chain, Scope.describe, List.length_map, whole, List.length_append]
      exact Nat.add_le_add_right counted 2
    · rw [chain, Scope.describe, whole, List.map_append, List.getLast?_append]
      rfl
    · rw [stack, TemplateStack.describe, reaches.frames, List.map_append, List.map_map]
      rfl
  · unfold checkClosed at open?
    split at open? <;> cases open?

/-- An unknown name in an inverted section, in the section of a lambda of an included template,
which stands in a section. -/
theorem compileInto_notFound_in_lambda :
    let schema := (Schema.ofRoot (.struct "page")).withStruct "page"
      ⟨[("a", .bool), ("b", .bool)], [("f", .model .text)]⟩
    let library := Library.ofCatalog
      [("p", "{{#f}}{{^b}}{{x}}{{/b}}{{/f}}")]
    let template : Template := ⟨"main", "{{#a}}{{>p}}{{/a}}"⟩
    let position : Position := ⟨"f", 1, 7, "{{^b}}{{x}}{{/b}}"⟩
    let scopes := ["inverted", "model (text)", "if data.a", "data (struct page)", "root"]
    (compileInto Sink.asking schema library .default template ()).2 =
        some (.notFound "x" position scopes "lambda f <- partial p <- main") ∧
      ∃ (path : List Entry) (room : Nat) (body : Body)
        (p : Point ⟨schema, library, .default⟩ (nestedAt ⟨schema, library, .default⟩ room) body)
        (added : List (List Layer)),
        Reaches ⟨schema, library, .default⟩ 64 (.root schema template) path room body ∧
        p.token.token.position = position ∧
          p.state.scope = added.flatten ++ Scope.root schema.root ∧
        List.Forall₂ Surrounding.Adds (p.surroundings path) added ∧
        (p.surroundings path).countP Surrounding.counts + 2 ≤ scopes.length ∧
        scopes.getLast? = some "root" ∧
        "lambda f <- partial p <- main" =
          " <- ".intercalate (path.map (fun entry => entry.frame.describe) ++ ["main"]) := by
  intro schema library template position scopes
  have failed : (compileInto Sink.asking schema library .default template ()).2 =
      some (.notFound "x" position scopes "lambda f <- partial p <- main") := by decide +kernel
  obtain ⟨path, room, body, p, added, reaches, -, -, place, -, scope, adds, counted, last,
      frames⟩ :=
    compileInto_notFound Sink.isSincere_asking failed
  exact ⟨failed, path, room, body, p, added, reaches, place, scope, adds, counted, last, frames⟩

end Compile

end Stencil
