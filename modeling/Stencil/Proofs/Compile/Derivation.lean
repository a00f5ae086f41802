import Stencil.Compile.Basic
import Stencil.Proofs.Program.Spelling

/-!
Derivations: which instructions the tokens of a template stand for, construct by construct. Open
constructs are drafts, to which tokens are added one after another.
-/

namespace Stencil

theorem Token.kind_of_tag? {token : Token} {kind : TagKind} {name : String}
    (tag : token.tag? = some (kind, name)) : token.kind = .tag kind name := by
  unfold tag? at tag
  split at tag
  · next found =>
      cases tag
      exact found
  · cases tag

namespace LineToken

def tag? (t : LineToken) : Option (TagKind × String) :=
  if t.role = .normal then t.token.tag? else none

def text (t : LineToken) : String :=
  if t.role = .normal then
    match t.token.kind with
    | .text text | .whitespace text => text
    | .special mark => mark.text
    | .newline ending => ending.text
    | _ => ""
  else ""

end LineToken

def TagKind.writing? : TagKind → Option (NameUse × Escaping)
  | .escaped => some (.escaped, .escaped)
  | .unescaped => some (.unescaped, .raw)
  | _ => none

theorem TagKind.purpose_of_writing? {kind : TagKind} {purpose : NameUse} {escaping : Escaping}
    (writing : kind.writing? = some (purpose, escaping)) :
    purpose = .escaped ∨ purpose = .unescaped := by
  cases kind <;> simp_all [writing?]

def Scope.currentExpr (scope : Scope) : Expr :=
  (scope.current?.map ShapedExpr.expr).getD (.var "data")

def nest : List Guard → List Instruction → List Instruction
  | [], body => body
  | guard :: guards, body => [.conditional guard (nest guards body)]

namespace Compile

/-- Tokens that stand for instructions, when they are read in a scope with some names used and the
indentation given. The last index is the names used after them. Included templates and lambdas take
up tokens that stand for nothing by themselves. -/
inductive Derives (schema : Schema) :
    String → Scope → FreshNames → List LineToken → List Instruction → FreshNames → Prop where
  | nil {indent : String} {scope : Scope} {names : FreshNames} :
      Derives schema indent scope names [] [] names
  | indent {indent : String} {scope : Scope} {names last : FreshNames} {tokens : List LineToken}
      {instructions : List Instruction} : indent.isEmpty = false →
      Derives schema indent scope names tokens instructions last →
      Derives schema indent scope names tokens (.literal indent :: instructions) last
  | silent {indent : String} {scope : Scope} {names last : FreshNames} {t : LineToken}
      {rest : List LineToken} {more : List Instruction} : t.tag? = none → t.text = "" →
      Derives schema indent scope names rest more last →
      Derives schema indent scope names (t :: rest) more last
  | text {indent : String} {scope : Scope} {names last : FreshNames} {t : LineToken}
      {rest : List LineToken} {more : List Instruction} : t.tag? = none →
      Derives schema indent scope names rest more last →
      Derives schema indent scope names (t :: rest) (.literal t.text :: more) last
  | value {indent : String} {scope : Scope} {names after last : FreshNames} {t : LineToken}
      {kind : TagKind} {name : String} {purpose : NameUse} {escaping : Escaping}
      {found : ShapedExpr} {rest : List LineToken} {more : List Instruction} :
      t.tag? = some (kind, name) → kind.writing? = some (purpose, escaping) →
      scope.meaning schema name purpose names = .ok (.value found, after) →
      Derives schema indent scope after rest more last →
      Derives schema indent scope names (t :: rest) (.value found.expr escaping :: more) last
  | openSection {indent : String} {scope inside : Scope} {names after inner last : FreshNames}
      {t close : LineToken} {name : String} {guards : List Guard} {tokens rest : List LineToken}
      {body more : List Instruction} :
      t.tag? = some (.openSection, name) → close.tag? = some (.close, name) →
      scope.meaning schema name .openSection names = .ok (.openSection guards inside, after) →
      Derives schema indent inside after tokens body inner →
      Derives schema indent scope after rest more last →
      Derives schema indent scope names (t :: (tokens ++ close :: rest)) (nest guards body ++ more)
        last
  | openInverted {indent : String} {scope inside : Scope} {names after inner last : FreshNames}
      {t close : LineToken} {name : String} {guard : Guard} {tokens rest : List LineToken}
      {body more : List Instruction} :
      t.tag? = some (.openInverted, name) → close.tag? = some (.close, name) →
      scope.meaning schema name .openInverted names = .ok (.openInverted guard inside, after) →
      Derives schema indent inside after tokens body inner →
      Derives schema indent scope after rest more last →
      Derives schema indent scope names (t :: (tokens ++ close :: rest))
        (.inverted guard body :: more) last
  | block {indent : String} {scope : Scope} {names inner last : FreshNames}
      {t close : LineToken} {name : String} {tokens rest : List LineToken}
      {body more : List Instruction} :
      t.tag? = some (.openBlock, name) → close.tag? = some (.close, name) →
      Derives schema indent scope names tokens body inner →
      Derives schema indent scope names rest more last →
      Derives schema indent scope names (t :: (tokens ++ close :: rest)) (.block name body :: more)
        last
  | inclusion {indent deeper : String} {scope : Scope} {names inner last : FreshNames}
      {t : LineToken} {kind : TagKind} {name included : String} {taken tokens rest : List LineToken}
      {body more : List Instruction} :
      t.tag? = some (kind, name) → kind.isIndented = true →
      Derives schema deeper scope names tokens body inner →
      Derives schema indent scope names rest more last →
      Derives schema indent scope names (t :: (taken ++ rest)) (.inclusion included body :: more)
        last
  | rawLambda {indent : String} {scope : Scope} {names last : FreshNames} {t : LineToken}
      {call : LambdaCall} {decl : LambdaDecl} {taken rest : List LineToken}
      {more : List Instruction} :
      t.tag? = some (.openSection, call.name) →
      scope.meaning schema call.name .openSection names = .ok (.lambda decl, names) →
      decl.returns = .raw → call.kind = .raw → call.current = scope.currentExpr →
      Derives schema indent scope names rest more last →
      Derives schema indent scope names (t :: (taken ++ rest)) (.lambda call none :: more) last
  | modelLambda {indent : String} {scope : Scope} {names inner last : FreshNames} {t : LineToken}
      {call : LambdaCall} {decl : LambdaDecl} {shape : Shape} {taken tokens rest : List LineToken}
      {body more : List Instruction} :
      t.tag? = some (.openSection, call.name) →
      scope.meaning schema call.name .openSection names = .ok (.lambda decl, names) →
      decl.returns = .model shape → call.kind = .model (names.fresh "model").1 →
      call.current = scope.currentExpr →
      Derives schema "" (.value ⟨.var (names.fresh "model").1, shape⟩ :: scope)
        (names.fresh "model").2 tokens body inner →
      Derives schema indent scope names rest more last →
      Derives schema indent scope names (t :: (taken ++ rest)) (.lambda call (some body) :: more)
        last

variable {schema : Schema} {indent : String} {scope inside : Scope} {names after last : FreshNames}

namespace Derives

theorem append {first second : List LineToken} {before more : List Instruction}
    (derivesFirst : Derives schema indent scope names first before after)
    (derivesSecond : Derives schema indent scope after second more last) :
    Derives schema indent scope names (first ++ second) (before ++ more) last := by
  induction derivesFirst with
  | nil => exact derivesSecond
  | indent filled _ ih => exact .indent filled (ih derivesSecond)
  | silent plain empty _ ih => exact .silent plain empty (ih derivesSecond)
  | text plain _ ih => exact .text plain (ih derivesSecond)
  | value tag writing found _ ih => exact .value tag writing found (ih derivesSecond)
  | openSection tag close opened inner _ _ ih =>
      simp only [List.cons_append, List.append_assoc]
      exact .openSection tag close opened inner (ih derivesSecond)
  | openInverted tag close opened inner _ _ ih =>
      simp only [List.cons_append, List.append_assoc]
      exact .openInverted tag close opened inner (ih derivesSecond)
  | block tag close inner _ _ ih =>
      simp only [List.cons_append, List.append_assoc]
      exact .block tag close inner (ih derivesSecond)
  | inclusion tag indented inner _ _ ih =>
      simp only [List.cons_append, List.append_assoc]
      exact .inclusion tag indented inner (ih derivesSecond)
  | rawLambda tag found returns kind current _ ih =>
      simp only [List.cons_append, List.append_assoc]
      exact .rawLambda tag found returns kind current (ih derivesSecond)
  | modelLambda tag found returns kind current inner _ _ ih =>
      simp only [List.cons_append, List.append_assoc]
      exact .modelLambda tag found returns kind current inner (ih derivesSecond)

end Derives

def Adds (schema : Schema) (indent : String) (scope : Scope) (names : FreshNames)
    (tokens : List LineToken) (events : List Event) (last : FreshNames) : Prop :=
  ∃ instructions, Derives schema indent scope names tokens instructions last ∧
    Spells events instructions

namespace Adds

theorem nil : Adds schema indent scope names [] [] names := ⟨[], .nil, .nil⟩

theorem append {first second : List LineToken} {events more : List Event}
    (addsFirst : Adds schema indent scope names first events after)
    (addsSecond : Adds schema indent scope after second more last) :
    Adds schema indent scope names (first ++ second) (events ++ more) last := by
  obtain ⟨before, derivesFirst, spellsFirst⟩ := addsFirst
  obtain ⟨later, derivesSecond, spellsSecond⟩ := addsSecond
  exact ⟨before ++ later, derivesFirst.append derivesSecond, spellsFirst.append spellsSecond⟩

end Adds

inductive Opens (schema : Schema) (scope : Scope) (names : FreshNames) (t : LineToken) :
    OpenTag → List Event → Scope → Prop where
  | openSection {name : String} {position : Position} {guards : List Guard} {inside : Scope}
      {after : FreshNames} : t.tag? = some (.openSection, name) →
      scope.meaning schema name .openSection names = .ok (.openSection guards inside, after) →
      Opens schema scope names t ⟨.openSection, name, position, guards.length, scope, after⟩
        (guards.map fun guard => .call (.enterSection guard)) inside
  | openInverted {name : String} {position : Position} {guard : Guard} {inside : Scope}
      {after : FreshNames} : t.tag? = some (.openInverted, name) →
      scope.meaning schema name .openInverted names = .ok (.openInverted guard inside, after) →
      Opens schema scope names t ⟨.openInverted, name, position, 1, scope, after⟩
        [.call (.enterInverted guard)] inside
  | openBlock {name : String} {position : Position} : t.tag? = some (.openBlock, name) →
      Opens schema scope names t ⟨.openBlock, name, position, 0, scope, names⟩
        [.call (.enterBlock name)] scope

theorem Opens.scope_eq {t : LineToken} {tag : OpenTag} {enter : List Event}
    (opens : Opens schema scope names t tag enter inside) : tag.scope = scope := by
  cases opens <;> rfl

def OpenTag.leave (tag : OpenTag) : List Event :=
  match tag.kind with
  | .openInverted => [.call .exitInverted]
  | .openBlock => [.call .exitBlock]
  | _ => List.replicate tag.guards (.call .exitSection)

theorem spells_nest (guards : List Guard) {inner : List Event} {body : List Instruction}
    (spells : Spells inner body) :
    Spells ((guards.map fun guard => .call (.enterSection guard)) ++
      (inner ++ List.replicate guards.length (.call .exitSection))) (nest guards body) := by
  induction guards with
  | nil => simpa [nest] using spells
  | cons guard guards ih =>
      have whole := Spells.enclose (.conditional guard) ih
      simpa [Construct.enter, Construct.exit, Construct.close, nest, List.replicate_succ']
        using whole

theorem Opens.close {t close : LineToken} {tag : OpenTag} {enter inner : List Event}
    {tokens : List LineToken} (opens : Opens schema scope names t tag enter inside)
    (adds : Adds schema indent inside tag.names tokens inner last)
    (closing : close.tag? = some (.close, tag.name)) :
    Adds schema indent scope names (t :: (tokens ++ [close])) (enter ++ (inner ++ tag.leave))
      tag.names := by
  obtain ⟨body, derives, spells⟩ := adds
  cases opens with
  | openSection opening found =>
      refine ⟨nest _ body ++ [], .openSection opening closing found derives .nil, ?_⟩
      rw [List.append_nil]
      exact spells_nest _ spells
  | openInverted opening found =>
      exact ⟨[.inverted _ body], .openInverted opening closing found derives .nil,
        Spells.enclose (.inverted _) spells⟩
  | openBlock opening =>
      exact ⟨[.block _ body], .block opening closing derives .nil, Spells.enclose (.block _) spells⟩

/-- The tokens and events of a template part way through, below the open tags. -/
inductive Draft (schema : Schema) (indent : String) (start : Scope) (first : FreshNames) :
    List OpenTag → Scope → FreshNames → List LineToken → List Event → Prop where
  | outermost {names : FreshNames} {tokens : List LineToken} {events : List Event} :
      Adds schema indent start first tokens events names →
      Draft schema indent start first [] start names tokens events
  | inside {outer : List OpenTag} {scope inside : Scope} {names after : FreshNames}
      {before tokens : List LineToken} {events enter inner : List Event} {t : LineToken}
      {tag : OpenTag} : Draft schema indent start first outer scope names before events →
      Opens schema scope names t tag enter inside →
      Adds schema indent inside tag.names tokens inner after →
      Draft schema indent start first (tag :: outer) inside after (before ++ t :: tokens)
        (events ++ (enter ++ inner))

namespace Draft

variable {start : Scope} {first : FreshNames} {openTags : List OpenTag}
  {before tokens : List LineToken} {events more : List Event}

theorem extend (draft : Draft schema indent start first openTags scope names before events)
    (adds : Adds schema indent scope names tokens more after) :
    Draft schema indent start first openTags scope after (before ++ tokens) (events ++ more) := by
  cases draft with
  | outermost earlier => exact .outermost (earlier.append adds)
  | inside around opens earlier =>
      rw [List.append_assoc, List.append_assoc, List.append_assoc, List.cons_append]
      exact .inside around opens (earlier.append adds)

theorem close {tag : OpenTag} {closing : LineToken}
    (draft : Draft schema indent start first (tag :: openTags) scope names before events)
    (closes : closing.tag? = some (.close, tag.name)) :
    Draft schema indent start first openTags tag.scope tag.names (before ++ [closing])
      (events ++ tag.leave) := by
  cases draft with
  | inside around opens adds =>
      have whole := around.extend (opens.close adds closes)
      rw [opens.scope_eq]
      simpa only [List.append_assoc, List.cons_append] using whole

theorem adds (draft : Draft schema indent start first [] scope names before events) :
    Adds schema indent start first before events names := by
  cases draft with
  | outermost adds => exact adds

theorem scope_eq (draft : Draft schema indent start first [] scope names before events) :
    scope = start := by
  cases draft
  rfl

end Draft

end Compile

end Stencil
