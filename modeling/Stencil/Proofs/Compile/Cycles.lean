import Mathlib.Data.List.Perm.Subperm
import Mathlib.Logic.Relation
import Stencil.Proofs.Compile.Nesting
import Stencil.Proofs.Compile.Untagged

/-!
Templates that include themselves. What carries the proof is that the templates being compiled have
different names, so that there is always room for one more as long as each of them is known. Main
statement: templates of inclusions are compiled unless they lead into a cycle, which is reported as
such, and no template is ever included in one of its name.
-/

namespace Stencil

open Relation

def Table.Includes (texts : Table String) (name included : String) : Prop :=
  ∃ source tokens token, texts.get? name = some source ∧ tokenize name source = .ok tokens ∧
    token ∈ tokens ∧ token.tag? = some (.inclusion, included)

def Table.Ends (texts : Table String) (name : String) : Prop :=
  ∀ other, ReflTransGen texts.Includes name other → ¬ TransGen texts.Includes other other

/-- That the only tags of a text include whole templates of a catalog. -/
def Table.Covers (catalog : Table String) (name source : String) : Prop :=
  ∃ tokens, tokenize name source = .ok tokens ∧ ∀ token ∈ tokens, ∀ tag ∈ token.tag?,
    tag.1 = .inclusion ∧ '#' ∉ tag.2.toList ∧ (catalog.get? tag.2).isSome = true

instance (catalog : Table String) (name source : String) :
    Decidable (catalog.Covers name source) :=
  match read : tokenize name source with
  | .error _ => isFalse (by rintro ⟨tokens, read', -⟩; cases read.symm.trans read')
  | .ok tokens => decidable_of_iff _
      ⟨fun each => ⟨tokens, read, each⟩, fun ⟨_, read', each⟩ => by
        cases read.symm.trans read'
        exact each⟩

def Template.texts (template : Template) (catalog : Table String) : Table String :=
  (template.name, template.source) :: catalog

def Template.OnlyIncludes (template : Template) (catalog : Table String) : Prop :=
  ∀ name source, (template.texts catalog).get? name = some source → catalog.Covers name source

section

variable {texts catalog : Table String} {template : Template} {name included source : String}

theorem Table.mem_of_get? (found : texts.get? name = some source) : (name, source) ∈ texts := by
  obtain ⟨before, after, rfl, -⟩ := List.lookup_eq_some_iff.mp found
  simp

theorem Template.onlyIncludes_of_forall
    (each : ∀ entry ∈ template.texts catalog, catalog.Covers entry.1 entry.2) :
    template.OnlyIncludes catalog :=
  fun _ _ found => each _ (Table.mem_of_get? found)

theorem Template.texts_get? (fresh : catalog.get? template.name = none)
    (found : catalog.get? name = some source) :
    (template.texts catalog).get? name = some source := by
  have other : (name == template.name) = false := by
    rw [beq_eq_false_iff_ne]
    rintro rfl
    cases fresh.symm.trans found
  rw [Table.get?, Template.texts, List.lookup_cons, other]
  exact found

theorem Template.texts_get?_self :
    (template.texts catalog).get? template.name = some template.source := by
  simp [Table.get?, Template.texts]

theorem Table.Ends.of_includes (each : ∀ included, texts.Includes name included →
    texts.Ends included) : texts.Ends name := by
  intro other reaches cyclic
  obtain rfl | ⟨next, includes, further⟩ := ReflTransGen.cases_head reaches
  · obtain ⟨next, includes, back⟩ := TransGen.head'_iff.mp cyclic
    exact each next includes name back cyclic
  · exact each next includes other further cyclic

theorem Table.Ends.of_tags {tokens : List Token} (found : texts.get? name = some source)
    (read : tokenize name source = .ok tokens)
    (each : ∀ token ∈ tokens, ∀ included, token.tag? = some (.inclusion, included) →
      texts.Ends included) : texts.Ends name := by
  refine .of_includes ?_
  rintro included ⟨source', tokens', token, found', read', member, tag⟩
  cases found.symm.trans found'
  cases read.symm.trans read'
  exact each token member included tag

end

namespace Compile

variable {setting : Setting} {nested? : Option Nested} {nested : Nested} {body : Body}
  {s : State} {t : LineToken} {α : Type}

def Meets (fails : CompileError → Prop) (succeeds : α → Prop) : Except CompileError α → Prop
  | .error error => fails error
  | .ok result => succeeds result

theorem runAll_meets {ι : Type} {step : State → ι → Outcome} {fails : CompileError → Prop}
    {P : State → Prop} {R : ι → Prop} {items : List ι}
    (each : ∀ item ∈ items, ∀ s, P s →
      Meets fails (fun result => P result.2 ∧ R item) (step s item)) (start : P s) :
    Meets fails (fun result => P result.2 ∧ ∀ item ∈ items, R item) (runAll step s items) := by
  induction items generalizing s with
  | nil => exact ⟨start, List.forall_mem_nil _⟩
  | cons item items ih =>
      obtain ⟨here, further⟩ := List.forall_mem_cons.mp each
      have first := here s start
      rw [runAll]
      cases done : step s item with
      | error problem =>
          rw [done] at first
          exact first
      | ok result =>
          rw [done] at first
          have rest := ih further first.1
          rw [ok_bind]
          cases run : runAll step result.2 items with
          | error problem =>
              rw [run] at rest
              simp only [run]
              exact rest
          | ok last =>
              rw [run] at rest
              simp only [run]
              exact ⟨rest.1, List.forall_mem_cons.mpr ⟨first.2, rest.2⟩⟩

theorem includeTemplate_open {kind : FrameKind} {name : String} {position : Position}
    {indent : String} {blocks : GivenBlocks} {template : Template}
    (found : setting.library.fetch name body.stack position = .ok template)
    (included : kind ≠ .parent) (isOpen : body.stack.contains template.name = true) :
    includeTemplate setting (some nested) body s kind name position indent blocks =
      .error (.recursiveInclude template.name position body.stack.describe) := by
  simp [includeTemplate, found, included, isOpen]

section

variable {catalog : Table String} {template : Template} {name : String}

/-- That a body is one that a compile comes to which follows inclusions only: the templates being
compiled are known and have different names, and the body is that of the innermost of them, which
each of them leads to. -/
structure Follows (template : Template) (catalog : Table String) (body : Body) : Prop where
  source : (template.texts catalog).get? body.stack.top.name = some body.source
  noBlocks : body.blocks = []
  noLambda : ∀ frame ∈ body.stack.frames, frame.kind ≠ .lambda
  known : ∀ frame ∈ body.stack.frames, ((template.texts catalog).get? frame.name).isSome = true
  distinct : (body.stack.frames.map Frame.name).Nodup
  leads : ∀ frame ∈ body.stack.frames,
    ReflTransGen (template.texts catalog).Includes frame.name body.stack.top.name
  reached : ReflTransGen (template.texts catalog).Includes template.name body.stack.top.name

theorem Follows.root (schema : Schema) (template : Template) (catalog : Table String) :
    Follows template catalog (.root schema template) where
  source := Template.texts_get?_self
  noBlocks := rfl
  noLambda := List.forall_mem_singleton.mpr nofun
  known := List.forall_mem_singleton.mpr
    (Option.isSome_iff_exists.mpr ⟨_, Template.texts_get?_self⟩)
  distinct := List.nodup_cons.mpr ⟨List.not_mem_nil, List.nodup_nil⟩
  leads := List.forall_mem_singleton.mpr .refl
  reached := .refl

theorem Follows.depth_le (follows : Follows template catalog body) :
    body.stack.depth ≤ catalog.length + 1 := by
  -- Different names that are all known are no more than all that are known.
  have known : body.stack.frames.map Frame.name ⊆ (template.texts catalog).map Prod.fst := by
    intro name member
    obtain ⟨frame, within, rfl⟩ := List.mem_map.mp member
    obtain ⟨source, found⟩ := Option.isSome_iff_exists.mp (follows.known frame within)
    exact List.mem_map_of_mem (Table.mem_of_get? found)
  have bounded := (List.subperm_of_subset follows.distinct known).length_le
  simpa [TemplateStack.depth, Template.texts] using bounded

theorem Follows.contains_iff (follows : Follows template catalog body) :
    body.stack.contains name = true ↔ ∃ frame ∈ body.stack.frames, frame.name = name := by
  rw [TemplateStack.contains, List.any_eq_true]
  constructor
  · rintro ⟨frame, member, named⟩
    exact ⟨frame, member, of_decide_eq_true (Bool.and_eq_true_iff.mp named).2⟩
  · rintro ⟨frame, member, rfl⟩
    exact ⟨frame, member, by simp [follows.noLambda frame member]⟩

theorem Follows.enter (follows : Follows template catalog body) {included : Template}
    {indent : String} (found : (template.texts catalog).get? included.name = some included.source)
    (includes : (template.texts catalog).Includes body.stack.top.name included.name)
    (closed : body.stack.contains included.name = false) :
    Follows template catalog (body.enter s .inclusion included indent []) where
  source := found
  noBlocks := rfl
  noLambda := List.forall_mem_cons.mpr ⟨nofun, follows.noLambda⟩
  known := List.forall_mem_cons.mpr ⟨Option.isSome_iff_exists.mpr ⟨_, found⟩, follows.known⟩
  distinct := by
    refine List.nodup_cons.mpr ⟨?_, follows.distinct⟩
    intro member
    obtain ⟨frame, within, named⟩ := List.mem_map.mp member
    cases closed.symm.trans (follows.contains_iff.mpr ⟨frame, within, named⟩)
  leads := by
    refine List.forall_mem_cons.mpr ⟨.refl, ?_⟩
    intro frame member
    exact (follows.leads frame member).tail includes
  reached := follows.reached.tail includes

/-- The error of a cycle that a template leads into. -/
def FindsCycle (template : Template) (catalog : Table String) (error : CompileError) : Prop :=
  ∃ name position templates, error = .recursiveInclude name position templates ∧
    ReflTransGen (template.texts catalog).Includes template.name name ∧
    TransGen (template.texts catalog).Includes name name

def Searches (template : Template) (catalog : Table String) (nested : Nested) (body : Body) :
    Prop :=
  Meets (FindsCycle template catalog)
    (fun _ => (template.texts catalog).Ends body.stack.top.name) (nested body)

def State.IsIdle (s : State) : Prop := s.mode = .normal ∧ s.openTags = []

section

variable (library : setting.library = .ofCatalog catalog)
  (fresh : catalog.get? template.name = none) (follows : Follows template catalog body)
  (searches : ∀ inner, Follows template catalog inner →
    inner.stack.depth = body.stack.depth + 1 → Searches template catalog nested inner)

include library fresh follows searches

theorem includeTemplate_searches (s : State) (position : Position) (indent : String)
    {included : String} (whole : '#' ∉ included.toList)
    (known : (catalog.get? included).isSome = true)
    (includes : (template.texts catalog).Includes body.stack.top.name included) (idle : s.IsIdle) :
    Meets (FindsCycle template catalog)
      (fun result => result.2.IsIdle ∧ (template.texts catalog).Ends included)
      (includeTemplate setting (some nested) body s .inclusion included position indent []) := by
  obtain ⟨source, here⟩ := Option.isSome_iff_exists.mp known
  have fetched : setting.library.fetch included body.stack position = .ok ⟨included, source⟩ := by
    rw [Library.fetch_of_whole whole, library, Library.ofCatalog, here]
    rfl
  cases isOpen : body.stack.contains included with
  | true =>
      -- The open template leads to the one that includes it again.
      obtain ⟨frame, member, rfl⟩ := follows.contains_iff.mp isOpen
      rw [includeTemplate_open fetched (by decide) isOpen]
      refine ⟨frame.name, _, _, rfl, follows.reached.tail includes, ?_⟩
      exact .tail' (follows.leads frame member) includes
  | false =>
      have inside := searches (body.enter s .inclusion ⟨included, source⟩ indent [])
        (follows.enter (Template.texts_get? fresh here) includes isOpen) rfl
      rw [includeTemplate_found fetched (.inr isOpen)]
      unfold Searches at inside
      cases compiled : nested (body.enter s .inclusion ⟨included, source⟩ indent []) with
      | error error =>
          rw [compiled] at inside
          exact inside
      | ok result =>
          rw [compiled] at inside
          exact ⟨idle, inside⟩

theorem readToken_searches
    (includes : ∀ kind included, t.token.tag? = some (kind, included) → kind = .inclusion ∧
      '#' ∉ included.toList ∧ (catalog.get? included).isSome = true ∧
      (template.texts catalog).Includes body.stack.top.name included)
    (role : t.token.tag?.isSome = true → t.role = .normal) (idle : s.IsIdle) :
    Meets (FindsCycle template catalog)
      (fun result => result.2.IsIdle ∧ ∀ kind included, t.token.tag? = some (kind, included) →
        (template.texts catalog).Ends included)
      (readToken setting (some nested) body false false s t) := by
  cases tag : t.token.tag? with
  | none =>
      obtain ⟨events, next, read, same, -⟩ := readPlain_untagged setting (some nested) body s
        tag
      rw [readToken_normal idle.1, read]
      refine ⟨?_, nofun⟩
      rw [same]
      exact idle
  | some found =>
      obtain ⟨kind, included⟩ := found
      obtain ⟨rfl, whole, known, edge⟩ := includes kind included tag
      rw [readToken_inclusion idle.1 (role (by rw [tag]; rfl)) (Token.kind_of_tag? tag)]
      have inside := includeTemplate_searches library fresh follows searches
        { s with pendingIndent := none } t.token.position (s.pendingIndent.getD "") whole known edge
        idle
      revert inside
      cases includeTemplate setting (some nested) body { s with pendingIndent := none } .inclusion
          included t.token.position (s.pendingIndent.getD "") [] with
      | error error => exact id
      | ok result =>
          rintro ⟨still, ends⟩
          refine ⟨still, ?_⟩
          rintro kind other ⟨⟩
          exact ends

theorem compileWith_searches (only : template.OnlyIncludes catalog) :
    Searches template catalog (compileWith setting (some nested)) body := by
  obtain ⟨tokens, read, tags⟩ := only body.stack.top.name body.source follows.source
  have ends := endsOnce_of_tokenize read
  have member {t : LineToken} (within : t ∈ (LineClassifier.groupsOf tokens).flatten) :
      t.token ∈ tokens := LineClassifier.token_mem_of_mem_groupsOf within
  have apart {t : LineToken} (within : t ∈ (LineClassifier.groupsOf tokens).flatten)
      {kind : TagKind} (other : kind ≠ .inclusion) (name : String) :
      t.token.kind ≠ .tag kind name := by
    intro tag
    exact other (tags t.token (member within) (kind, name) (by rw [Token.tag?, tag]; rfl)).1
  have each (t : LineToken) (within : t ∈ (LineClassifier.groupsOf tokens).flatten) (s : State)
      (idle : s.IsIdle) := by
    refine readToken_searches library fresh follows searches ?_
      (LineClassifier.role_of_tag ends within) idle
    intro kind included tag
    obtain ⟨inclusion, whole, known⟩ := tags t.token (member within) (kind, included) tag
    refine ⟨inclusion, whole, known, body.source, tokens, t.token, follows.source, read,
      member within, ?_⟩
    rw [tag, ← inclusion]
  have run := runAll_meets (P := State.IsIdle)
    (R := fun (t : LineToken) => ∀ kind included, t.token.tag? = some (kind, included) →
      (template.texts catalog).Ends included)
    each (⟨rfl, rfl⟩ : (State.start body).IsIdle)
  rw [Searches, compileWith, groups_unreplaced follows.noBlocks read, ok_bind,
    runAll_readGroup_normal rfl (fun t within => apart within (by decide))
      (fun t within => apart within (by decide))]
  cases done : runAll (readToken setting (some nested) body false false) (State.start body)
      (LineClassifier.groupsOf tokens).flatten with
  | error error =>
      rw [done] at run
      exact run
  | ok result =>
      rw [done] at run
      obtain ⟨idle, each⟩ := run
      have closed : checkClosed body result.2 = .ok () := checkClosed_iff.mpr idle
      simp only [ok_bind, closed, pure_eq_ok]
      refine Table.Ends.of_tags follows.source read ?_
      rw [← LineClassifier.map_token_groupsOf ends]
      exact List.forall_mem_map.mpr fun t within => each t within .inclusion

end

/-- With room for every template that is known, a body is compiled unless a cycle is found. -/
theorem compileBody_searches (library : setting.library = .ofCatalog catalog)
    (fresh : catalog.get? template.name = none) (only : template.OnlyIncludes catalog) (room : Nat)
    (follows : Follows template catalog body)
    (enough : catalog.length + 2 ≤ room + body.stack.depth) :
    Searches template catalog (compileBody setting room) body := by
  induction room generalizing body with
  | zero =>
      -- More templates would be open than there are.
      have bounded := follows.depth_le
      omega
  | succ room ih =>
      refine compileWith_searches library fresh follows ?_ only
      intro inner further deeper
      exact ih further (by omega)

end

end Compile

/-- That no template is included into one of its name, be it directly or not. Lambdas bear names of
their own and do not count. -/
def TemplateStack.IsAcyclic (stack : TemplateStack) : Prop :=
  stack.frames.Pairwise fun frame below =>
    frame.kind = .inclusion → below.kind ≠ .lambda → frame.name ≠ below.name

theorem TemplateStack.isAcyclic_root (name : String) : (root name).IsAcyclic :=
  List.pairwise_singleton _ _

theorem TemplateStack.IsAcyclic.enter {stack : TemplateStack} {kind : FrameKind} {name : String}
    (acyclic : stack.IsAcyclic) (enters : stack.MayEnter kind name) :
    (stack.enter kind name).IsAcyclic := by
  refine List.pairwise_cons.mpr ⟨?_, acyclic⟩
  rintro below member included other rfl
  have isOpen : stack.contains below.name = true :=
    List.any_eq_true.mpr ⟨below, member, by simp [other]⟩
  cases isOpen.symm.trans (enters included)

theorem isAcyclic_of_entered {schema : Schema} {library : Library} {options : Options}
    {template : Template} {deeper : Compile.Body → Delivery (List Event × List TemplateStack) Bool}
    {stack : TemplateStack}
    (entered : stack ∈ ((composeInto recorder schema library options deeper template).on
      ([], [.root template.name])).2.2) : stack.IsAcyclic := by
  have root := TemplateStack.isAcyclic_root template.name
  obtain ⟨-, -, kept⟩ := composeInto_admits (recorder_admits TemplateStack.IsAcyclic)
    (fun _ _ _ acyclic _ enters => acyclic.enter enters) root schema library deeper
    ([], [.root template.name])
  exact kept (List.forall_mem_singleton.mpr root) stack entered

/-- Cycles are detected exactly. Where templates have no tags but such that include templates of a
catalog, and options allow for as many levels as there are templates, a compile succeeds if and only
if no cycle can be reached from its template, and fails for nothing but a cycle that it has found.
In no compile at all is a template included where one of its name is being compiled. -/
theorem compile_cycles (schema : Schema) (options : Options) (template : Template) :
    (∀ catalog : Table String, catalog.get? template.name = none → template.OnlyIncludes catalog →
      catalog.length + 1 ≤ options.maxIncludeDepth →
      ((∃ events, compile schema (.ofCatalog catalog) options template = .ok events) ↔
        (template.texts catalog).Ends template.name) ∧
      ∀ error, compile schema (.ofCatalog catalog) options template = .error error →
        Compile.FindsCycle template catalog error) ∧
    ∀ library deeper, ∀ stack ∈ ((composeInto recorder schema library options deeper template).on
      ([], [.root template.name])).2.2, stack.IsAcyclic := by
  refine ⟨?_, fun library deeper stack => isAcyclic_of_entered⟩
  intro catalog fresh only enough
  have searched : Compile.Searches template catalog
      (Compile.compileBody ⟨schema, .ofCatalog catalog, options⟩ options.maxIncludeDepth)
      (.root schema template) :=
    Compile.compileBody_searches rfl fresh only options.maxIncludeDepth
      (.root schema template catalog) (Nat.add_le_add_right enough 1)
  unfold Compile.Searches at searched
  unfold compile
  revert searched
  cases Compile.compileBody ⟨schema, .ofCatalog catalog, options⟩ options.maxIncludeDepth
      (.root schema template) with
  | ok result =>
      intro ends
      exact ⟨⟨fun _ => ends, fun _ => ⟨_, rfl⟩⟩, nofun⟩
  | error error =>
      rintro found
      refine ⟨⟨nofun, ?_⟩, ?_⟩
      · intro ends
        obtain ⟨name, -, -, -, reaches, cyclic⟩ := found
        exact absurd cyclic (ends name reaches)
      · rintro _ ⟨⟩
        exact found

/-- Two templates that include each other. -/
theorem compile_cycles_pair :
    let catalog := [("a", "{{>b}}"), ("b", "{{>a}}")]
    ∃ error, compile .dynamic (.ofCatalog catalog) ⟨3⟩ ⟨"main", "{{>a}}"⟩ = .error error ∧
      Compile.FindsCycle ⟨"main", "{{>a}}"⟩ catalog error := by
  intro catalog
  have fails : (compile .dynamic (.ofCatalog catalog) ⟨3⟩ ⟨"main", "{{>a}}"⟩).isOk = false := by
    decide +kernel
  obtain ⟨-, found⟩ := (compile_cycles .dynamic ⟨3⟩ ⟨"main", "{{>a}}"⟩).1 catalog (by decide)
    (Template.onlyIncludes_of_forall (by decide +kernel)) (by decide)
  revert fails found
  cases compile _ _ _ _ with
  | ok events => nofun
  | error error => exact fun _ found => ⟨error, rfl, found error rfl⟩

example : (compile .dynamic (.ofCatalog [("a", "{{>c}}"), ("b", "{{>c}}"), ("c", "x")]) ⟨4⟩
    ⟨"main", "{{>a}}{{>b}}"⟩).isOk = true := by
  decide +kernel

end Stencil
