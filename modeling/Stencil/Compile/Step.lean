import Stencil.Compile.State

/-!
How the tokens of a template become events. `nested?` compiles included templates and lambdas; it
is missing where templates are nested as deeply as they may be.
-/

namespace Stencil.Compile

variable (setting : Setting) (nested? : Option Nested) (body : Body)

def nestingError (s : State) (error : NestingError) (position : Position) : CompileError :=
  .nesting error position s.openNames body.stack.describe

def depthError (name : String) (position : Position) : CompileError :=
  .includeDepth name setting.options.maxIncludeDepth position body.stack.describe

/-- What a name refers to in the present scope. -/
def meaning (s : State) (name : String) (purpose : NameUse) (position : Position) :
    Except CompileError (Meaning × FreshNames) :=
  (s.scope.meaning setting.schema name purpose s.names).mapError
    (CompileError.ofNameError · position body.stack.describe)

/-- The indentation, if it is due: at the start of a line. -/
def indentLine (s : State) : List Event × State :=
  (if s.atLineStart && !body.indent.isEmpty then [.call (.literal body.indent)] else [],
    { s with atLineStart := false })

def writeText (s : State) (text : String) : List Event × State :=
  let (events, s) := indentLine body s
  (events ++ [.call (.literal text)], s)

def openTag (s : State) (kind : TagKind) (name : String) (position : Position) (guards : Nat)
    (scope : Scope) : State :=
  { s with scope, openTags := ⟨kind, name, position, guards, s.scope, s.names⟩ :: s.openTags }

def closeTag (s : State) (name : String) (position : Position) : Outcome :=
  match s.openTags with
  | [] => .error (nestingError body s (.unexpectedClose name) position)
  | tag :: outer =>
      if tag.name ≠ name then
        .error (nestingError body s (.mismatchedClose tag.name name) position)
      else
        let events := match tag.kind with
          | .openInverted => [.call .exitInverted]
          | .openBlock => [.call .exitBlock]
          | _ => List.replicate tag.guards (.call .exitSection)
        .ok (events, { s with scope := tag.scope, names := tag.names, openTags := outer })

/-- Compiles an included template in place. A template may not include itself, unless by a parent
call, which its blocks may end. -/
def includeTemplate (s : State) (kind : FrameKind) (name : String) (position : Position)
    (indent : String) (blocks : GivenBlocks) : Outcome :=
  match nested? with
  | none => .error (depthError setting body name position)
  | some nested => do
      let template ← setting.library.fetch name body.stack position
      if kind ≠ .parent && body.stack.contains template.name then
        throw (.recursiveInclude template.name position body.stack.describe)
      let (events, atLineStart) ← nested
        { stack := body.stack.enter kind template.name
          scope := s.scope
          names := s.names
          indent := body.indent ++ indent
          blocks
          atLineStart := s.atLineStart
          source := template.source }
      return (.call (.enterPartial name) :: events ++ [.call .exitPartial], { s with atLineStart })

def variableTag (s : State) (name : String) (purpose : NameUse) (escaping : Escaping)
    (position : Position) : Outcome := do
  let (found, names) ← meaning setting body s name purpose position
  let s := { s with names }
  match found with
  | .value found =>
      let (events, s) := indentLine body s
      return (events ++ [.call (.value found.expr escaping)], s)
  | _ => return ([], s)

def sectionTag (s : State) (name : String) (position : Position) : Outcome := do
  let (found, names) ← meaning setting body s name .openSection position
  let s := { s with names }
  match found with
  | .openSection guards scope =>
      return (guards.map fun guard => .call (.enterSection guard),
        openTag s .openSection name position guards.length scope)
  | .lambda shape =>
      return ([], { s with mode := .lambda ⟨name, position, shape, "", 0, true⟩ })
  | _ => return ([], s)

def invertedTag (s : State) (name : String) (position : Position) : Outcome := do
  let (found, names) ← meaning setting body s name .openInverted position
  let s := { s with names }
  match found with
  | .openInverted guard scope =>
      return ([.call (.enterInverted guard)], openTag s .openInverted name position 1 scope)
  | _ => return ([], s)

/-- A tag in normal mode. The indentation of its line counts for included templates only. -/
def plainTag (s : State) (kind : TagKind) (name : String) (position : Position) : Outcome :=
  let indent := if kind.isIndented then s.pendingIndent.getD "" else ""
  let s := { s with pendingIndent := none }
  match kind with
  | .escaped => variableTag setting body s name .escaped .escaped position
  | .unescaped => variableTag setting body s name .unescaped .raw position
  | .openSection => sectionTag setting body s name position
  | .openInverted => invertedTag setting body s name position
  | .close => closeTag body s name position
  | .inclusion => includeTemplate setting nested? body s .inclusion name position indent []
  | .openParent =>
      .ok ([], { s with mode := .parent (ParentCall.start name position) indent })
  | .openBlock =>
      .ok ([.call (.enterBlock name)], openTag s .openBlock name position 0 s.scope)

def readPlain (s : State) (t : LineToken) : Outcome :=
  match t.role with
  | .ignore => .ok ([], if t.token.isNewline then { s with atLineStart := true } else s)
  | .indent =>
      .ok ([], match t.token.kind with
        | .whitespace text => { s with pendingIndent := some text }
        | _ => s)
  | .eof => .ok ([], s)
  | .normal =>
      match t.token.kind with
      | .text text | .whitespace text => .ok (writeText body s text)
      | .special mark => .ok (writeText body s mark.text)
      | .newline ending =>
          .ok ([.call (.literal ending.text)], { s with atLineStart := true })
      | .comment _ | .delimiters _ _ | .eof => .ok ([], s)
      | .tag kind name => plainTag setting nested? body s kind name t.token.position

def readParent (s : State) (call : ParentCall) (indent : String) (token : Token) :
    Outcome :=
  match call.push token with
  | .error error => .error (nestingError body s error token.position)
  | .ok (next, false) => .ok ([], { s with mode := .parent next indent })
  | .ok (next, true) =>
      includeTemplate setting nested? body { s with mode := .normal } .parent next.parent
        next.position indent (next.givenBlocks :: body.blocks)

/-- The text that a lambda's template is compiled from: for a model the template that the lambda
brings with it, and else the body of the section. -/
def lambdaTemplate (stack : TemplateStack) (held : LambdaSection) :
    Except CompileError String :=
  match held.decl.returns, held.decl.template, held.decl.path with
  | .model _, some template, _ => .ok template
  | .model _, none, some path =>
      (setting.library.fetch path stack held.position).map Template.source
  | _, _, _ => .ok held.body

/-- The call of a lambda at its end tag. If the tag is alone on a line that nothing is written on,
the call takes over the indentation of the line. -/
def callLambda (s : State) (held : LambdaSection) (standalone : Bool) : Outcome :=
  match nested? with
  | none => .error (depthError setting body held.name held.position)
  | some nested =>
      let current := (s.scope.current?.map ShapedExpr.expr).getD (.var "data")
      let (kind, scope, names) : LambdaKind × Scope × FreshNames := match held.decl.returns with
        | .raw => (.raw, s.scope, s.names)
        | .model shape =>
            let (name, names) := s.names.fresh "model"
            (.model name, .value ⟨.var name, shape⟩ :: s.scope, names)
      let owed := standalone && s.atLineStart
      let (events, after) := if owed then ([], s) else indentLine body s
      let call : LambdaCall :=
        { name := held.name
          body := held.body
          current
          escaping := if held.decl.escaped then .escaped else .raw
          kind
          indent := if owed then body.indent else "" }
      let stack := body.stack.enter .lambda held.name
      let template : Except CompileError (List Event) := do
        let source ← lambdaTemplate setting stack held
        let (events, _) ← nested
          { stack, scope, names, indent := "", blocks := [], atLineStart := true, source }
        return events
      .ok (events ++ [.lambda call template], after)

/-- A token of a lambda section, which is kept as text up to the end tag. `closing` tells that the
group of the token holds nothing but the end tag, and `standalone` that whitespace around it is in
the group. -/
def readLambda (s : State) (held : LambdaSection) (t : LineToken) (closing standalone : Bool) :
    Outcome :=
  let keep (depth : Nat) : Outcome :=
    .ok ([], { s with mode := .lambda { held with
      body := held.body ++ t.token.raw, depth } })
  if held.opening && t.role = .ignore then .ok ([], s)
  else
    match t.token.kind with
    | .tag .close name =>
        if held.depth ≠ 0 then keep (held.depth - 1)
        else if name ≠ held.name then
          .error (nestingError body s (.mismatchedClose held.name name) t.token.position)
        else callLambda setting nested? body { s with mode := .normal } held standalone
    | .tag kind _ =>
        if kind.isOpening then keep (held.depth + 1)
        else if closing then .ok ([], s)
        else keep held.depth
    | .eof => .error (nestingError body s (.unclosed held.name) t.token.position)
    | _ => if closing then .ok ([], s) else keep held.depth

/-- Whether a group holds nothing for the output but the end tag of the lambda being read. -/
def closesLambda (mode : Mode) (group : LineGroup) : Bool :=
  match mode with
  | .lambda held =>
      held.depth = 0 &&
        group.all fun t => t.role ≠ .normal || t.token.kind = .tag .close held.name
  | _ => false

def readToken (closing standalone : Bool) (s : State) (t : LineToken) : Outcome :=
  match s.mode with
  | .normal => readPlain setting nested? body s t
  | .parent call indent => readParent setting nested? body s call indent t.token
  | .lambda held => readLambda setting nested? body s held t closing standalone

def endGroup (s : State) : State :=
  match s.mode with
  | .lambda held => { s with mode := .lambda { held with opening := false } }
  | _ => s

def readGroup (s : State) (g : LineGroup) : Outcome := do
  let closing := closesLambda s.mode g
  let standalone := closing && 1 < g.length
  let (events, s) ← runAll (readToken setting nested? body closing standalone) s g
  return (events, endGroup s)

def checkClosed (s : State) : Except CompileError Unit :=
  match s.mode, s.openTags with
  | .lambda held, _ =>
      .error (nestingError body s (.unclosed held.name) held.position)
  | .parent call _, _ =>
      .error (nestingError body s (.unclosed call.parent) call.position)
  | .normal, tag :: _ => .error (nestingError body s (.unclosed tag.name) tag.position)
  | .normal, [] => .ok ()

end Stencil.Compile
