import Stencil.Compile.Error
import Stencil.Scope.Basic
import Stencil.Scope.Fresh

/-!
What the name in a tag refers to. A name is looked for among the root bindings, then outwards
through the layers that are neither mappings nor dynamic, then among the lambdas if it names a
section, and last in the innermost mapping or dynamic layer.
-/

namespace Stencil

inductive NameUse where
  | escaped
  | unescaped
  | openSection
  | openInverted
  | inclusion
  | parent
  | block
  /-- A part of a dotted name before the last. -/
  | path
  deriving DecidableEq, Repr

/-- Which layers a search looks at. -/
inductive Reach where
  | all
  /-- All but the values that answer to every name. -/
  | declared
  deriving DecidableEq, Repr

inductive Meaning where
  | value (found : ShapedExpr)
  /-- Guards to pass in order, and the scope of the body. -/
  | openSection (guards : List Guard) (scope : Scope)
  | openInverted (guard : Guard) (scope : Scope)
  | lambda (lambda : LambdaDecl)
  /-- A template's name, compiled in the scope of the tag. -/
  | enclosing (scope : Scope)
  deriving DecidableEq, Repr

namespace Scope

def loopName? (index name : String) : Option ShapedExpr :=
  if name = "@first" ∨ name = "-first" then some ⟨.first index, .bool⟩
  else if name = "@last" ∨ name = "-last" then some ⟨.last index, .bool⟩
  else if name = "@index" then some ⟨.index index false, .number⟩
  else if name = "-index" then some ⟨.index index true, .number⟩
  else none

def structDecl (schema : Schema) (name : String) : Except NameError StructDecl :=
  match schema.struct? name with
  | some shape => .ok shape
  | none => .error (.shape s!"Unknown struct shape '{name}'")

def child? (schema : Schema) (found : ShapedExpr) (name : String) :
    Except NameError (Option ShapedExpr) :=
  match found.shape with
  | .struct structName => do
      let shape ← structDecl schema structName
      return (shape.fields.get? name).map fun field => ⟨.field found.expr name, field⟩
  | .enum enumName =>
      match schema.enum? enumName with
      | none => .error (.shape s!"Unknown enum shape '{enumName}'")
      | some shape =>
          .ok (if name ∈ shape.variants then some ⟨.is found.expr name, .bool⟩ else none)
  | .mapping value => .ok (some ⟨.key found.expr name, value⟩)
  | .dynamic => .ok (some ⟨.nodeChild found.expr name, .dynamic⟩)
  | .bool | .text | .number | .optional _ | .sequence _ => .ok none

/-- Searches outwards. A mapping or dynamic value answers only when no layer around it that is
neither of these does. -/
def find? (schema : Schema) (name : String) (reach : Reach) :
    Scope → Except NameError (Option ShapedExpr)
  | [] => .ok none
  | .root _ :: _ => .ok none
  | .value found :: outer =>
      if found.shape.isOpenEnded then do
        match ← find? schema name .declared outer with
        | some hit => return some hit
        | none =>
            if reach = .declared then return none
            else if found.shape.isDynamic then
              return some ⟨.nodeSearch found.expr name, .dynamic⟩
            else child? schema found name
      else do
        match ← child? schema found name with
        | some hit => return some hit
        | none => find? schema name reach outer
  | .iteration index :: outer =>
      match loopName? index name with
      | some hit => .ok (some hit)
      | none => find? schema name reach outer
  | .guard _ :: outer => find? schema name reach outer
  | .inverted :: outer => find? schema name reach outer

def addPresent (expr : Expr) (guards : List Guard) : List Guard :=
  if guards.head? = some (.present expr) then guards else .present expr :: guards

/-- The layer of a loop's element, with the guards that elements which may be false or absent
need. -/
def elementLayer (expr : Expr) : Shape → List Guard × Layer
  | .bool => ([.truthy expr], .guard ⟨expr, .bool⟩)
  | .optional inner =>
      let (guards, layer) := elementLayer expr inner
      (addPresent expr guards, layer)
  | shape => ([], .value ⟨expr, shape⟩)

def sectionOver (schema : Schema) (scope : Scope) (expr : Expr) (names : FreshNames) :
    Shape → Except NameError (List Guard × Scope × FreshNames)
  | .bool => .ok ([.truthy expr], .guard ⟨expr, .bool⟩ :: scope, names)
  | .optional inner => do
      let (guards, inside, names) ← sectionOver schema scope expr names inner
      return (addPresent expr guards, inside, names)
  | .sequence elementShape =>
      let (element, names) := names.fresh "element"
      let (index, names) := names.fresh "index"
      let (guards, layer) := elementLayer (.var element) elementShape
      .ok (.each expr element index :: guards, layer :: .iteration index :: scope, names)
  | .dynamic =>
      let (element, names) := names.fresh "element"
      let (index, names) := names.fresh "index"
      .ok ([.eachNode expr element index],
        .value ⟨.var element, .dynamic⟩ :: .iteration index :: scope, names)
  | .struct name => do
      let _ ← structDecl schema name
      return ([.present expr], .value ⟨expr, .struct name⟩ :: scope, names)
  | shape => .ok ([.present expr], .value ⟨expr, shape⟩ :: scope, names)

def guardOver (expr : Expr) (names : FreshNames) : Shape → Guard × FreshNames
  | .optional inner => guardOver expr names inner
  | .bool => (.truthy expr, names)
  | .sequence _ =>
      let (element, names) := names.fresh "element"
      let (index, names) := names.fresh "index"
      (.each expr element index, names)
  | .dynamic =>
      let (element, names) := names.fresh "element"
      let (index, names) := names.fresh "index"
      (.eachNode expr element index, names)
  | .struct _ | .mapping _ | .text | .number | .enum _ => (.present expr, names)

def notFound (scope : Scope) (name : String) : NameError := .notFound name scope.describe

def lookupFirst (schema : Schema) (scope : Scope) (name first : String) (dotted : Bool)
    (purpose : NameUse) : Except NameError (ShapedExpr ⊕ LambdaDecl) := do
  match scope.fixed? first with
  | some found => return .inl found
  | none =>
      match ← find? schema first .declared scope with
      | some found => return .inl found
      | none =>
          let lambda? := if dotted then none else schema.lambdas.get? first
          match lambda?, purpose with
          | some lambda, .openSection => return .inr lambda
          | some _, .openInverted =>
              throw (.shape s!"Lambda section '{name}' cannot be inverted")
          | _, _ =>
              match ← find? schema first .all scope with
              | some found => return .inl found
              | none => throw (scope.notFound name)

def hasParts : Shape → Bool
  | .struct _ | .mapping _ | .dynamic | .enum _ => true
  | _ => false

def descend (schema : Schema) (scope : Scope) (name : String) (found : ShapedExpr) :
    List String → Except NameError ShapedExpr
  | [] => .ok found
  | segment :: rest =>
      if hasParts found.shape then do
        match ← child? schema found segment with
        | some part => descend schema scope name part rest
        | none => throw (scope.notFound name)
      else
        .error (.shape (s!"Cannot resolve '{segment}' of '{name}' through a value of shape " ++
          found.shape.describe))

/-- The value or lambda of a name other than a lone dot. -/
def lookup (schema : Schema) (scope : Scope) (name : String) (purpose : NameUse) :
    Except NameError (ShapedExpr ⊕ LambdaDecl) := do
  let segments := (Text.splitOn '.' name.toList).map String.ofList
  match segments with
  | [] => throw (scope.notFound name)
  | first :: rest =>
      if segments.any String.isEmpty then throw (scope.notFound name)
      match ← lookupFirst schema scope name first (!rest.isEmpty) purpose with
      | .inl found => return .inl (← descend schema scope name found rest)
      | .inr lambda => return .inr lambda

def useValue (schema : Schema) (scope : Scope) (name : String) (purpose : NameUse)
    (names : FreshNames) (found : ShapedExpr) : Except NameError (Meaning × FreshNames) := do
  match purpose with
  | .escaped | .unescaped =>
      if found.shape.isWritable then return (.value found, names)
      else
        throw (.shape s!"Cannot render '{name}' of shape {found.shape.describe} as a variable")
  | .openSection =>
      let (guards, inside, names) ← sectionOver schema scope found.expr names found.shape
      return (.openSection guards inside, names)
  | .openInverted =>
      let (guard, names) := guardOver found.expr names found.shape
      return (.openInverted guard (.inverted :: scope), names)
  | .path | .inclusion | .parent | .block => return (.value found, names)

/-- What the name of a tag refers to, with the names used up for it. The names of templates and
blocks are no values and are left alone. -/
def meaning (schema : Schema) (scope : Scope) (name : String) (purpose : NameUse)
    (names : FreshNames) : Except NameError (Meaning × FreshNames) := do
  if purpose = .inclusion ∨ purpose = .parent ∨ purpose = .block then
    return (.enclosing scope, names)
  if name = "." then
    match scope.current? with
    | some found => useValue schema scope name purpose names found
    | none => throw (scope.notFound name)
  else
    match ← lookup schema scope name purpose with
    | .inl found => useValue schema scope name purpose names found
    | .inr lambda => return (.lambda lambda, names)

end Scope

end Stencil
