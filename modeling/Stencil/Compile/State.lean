import Stencil.Program.Event
import Stencil.Scope.Meaning
import Stencil.Template.Inheritance
import Stencil.Template.Library

/-!
What is known while a template is compiled: what it inherits from its caller, the constructs that
are open, and what the tokens ahead are read for.
-/

namespace Stencil.Compile

/-- What all templates of one compile share. -/
structure Setting where
  schema : Schema
  library : Library
  options : Options

/-- A template body and what it inherits from the place that it is used at. -/
structure Body where
  stack : TemplateStack
  scope : Scope
  names : FreshNames
  indent : String
  blocks : GivenBlocks
  atLineStart : Bool
  source : String
  deriving DecidableEq, Repr

def Body.root (schema : Schema) (template : Template) : Body :=
  { stack := .root template.name
    scope := .root schema.root
    names := .root
    indent := ""
    blocks := []
    atLineStart := true
    source := template.source }

/-- An open section, inverted section or block, with the scope and the names to go back to. -/
structure OpenTag where
  kind : TagKind
  name : String
  position : Position
  guards : Nat
  scope : Scope
  names : FreshNames
  deriving DecidableEq, Repr

/-- A lambda section whose text is being read. -/
structure LambdaSection where
  name : String
  position : Position
  decl : LambdaDecl
  body : String
  depth : Nat
  /-- Whether the tokens ahead are still in the group of the opening tag. -/
  opening : Bool
  deriving DecidableEq, Repr

/-- What the tokens ahead are read for. -/
inductive Mode where
  | normal
  | parent (call : ParentCall) (indent : String)
  | lambda (held : LambdaSection)
  deriving DecidableEq, Repr

/-- The state between two tokens. `openTags` has the innermost first. -/
structure State where
  scope : Scope
  names : FreshNames
  /-- Whether nothing has been written on the current output line. -/
  atLineStart : Bool
  pendingIndent : Option String
  openTags : List OpenTag
  mode : Mode
  deriving DecidableEq, Repr

def State.start (body : Body) : State :=
  ⟨body.scope, body.names, body.atLineStart, none, [], .normal⟩

def State.openNames (s : State) : List String :=
  let tags := (s.openTags.map fun tag => tag.kind.sigil ++ tag.name).reverse
  match s.mode with
  | .normal => tags
  | .parent call _ => tags ++ ["<" ++ call.parent]
  | .lambda held => tags ++ ["#" ++ held.name]

abbrev Outcome := Except CompileError (List Event × State)

def runAll {α : Type} (step : State → α → Outcome) (s : State) : List α → Outcome
  | [] => .ok ([], s)
  | item :: rest => do
      let (events, s) ← step s item
      let (more, s) ← runAll step s rest
      return (events ++ more, s)

abbrev Nested := Body → Except CompileError (List Event × Bool)

end Stencil.Compile
