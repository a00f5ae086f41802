import Stencil.Token.Reader

/-!
Everything that can go wrong while a template is compiled, with its wording.
-/

namespace Stencil

inductive NestingError where
  | mismatchedClose (expected found : String)
  | unexpectedClose (name : String)
  | unclosed (name : String)
  | duplicateBlock (parent block : String)
  deriving DecidableEq, Repr

def NestingError.message : NestingError → String
  | mismatchedClose expected found => s!"Closing {found} block instead of {expected}"
  | unexpectedClose name => s!"Unexpected closing {name} block"
  | unclosed name => s!"Unclosed {name} block at end of file"
  | duplicateBlock parent block => s!"Duplicate block {block} in call to parent {parent}"

inductive LibraryError where
  | notFound (name : String)
  | unreadable (path reason : String)
  | fragmentNotFound (template fragment : String)
  deriving DecidableEq, Repr

def LibraryError.message : LibraryError → String
  | notFound name => s!"template '{name}' not found"
  | unreadable path reason => s!"cannot read {path}: {reason}"
  | fragmentNotFound template fragment => s!"no section '{fragment}' in template '{template}'"

inductive NameError where
  | notFound (name : String) (scopes : List String)
  | shape (message : String)
  deriving DecidableEq, Repr

/-- The error that ends a compile. `templates` tells which templates were being compiled. -/
inductive CompileError where
  | nesting (error : NestingError) (position : Position) (openNames : List String)
      (templates : String)
  | notFound (name : String) (position : Position) (scopes : List String) (templates : String)
  | shape (message : String) (position : Position) (templates : String)
  | library (name : String) (error : LibraryError) (position : Position) (templates : String)
  | recursiveInclude (name : String) (position : Position) (templates : String)
  | includeDepth (name : String) (depth : Nat) (position : Position) (templates : String)
  | token (template : String) (error : TokenError)
  deriving DecidableEq, Repr

namespace CompileError

def position? : CompileError → Option Position
  | nesting _ position _ _ | notFound _ position _ _ | shape _ position _
  | library _ _ position _ | recursiveInclude _ position _ | includeDepth _ _ position _ =>
      some position
  | token _ _ => none

def ofNameError (error : NameError) (position : Position) (templates : String) : CompileError :=
  match error with
  | .notFound name scopes => notFound name position scopes templates
  | .shape message => shape message position templates

def message : CompileError → String
  | nesting error position openNames templates =>
      let names := ", ".intercalate openNames
      s!"{position.describe}: {error.message} (open: [{names}]; templates: {templates})"
  | notFound name position scopes templates =>
      let chain := " <- ".intercalate scopes
      s!"{position.describe}: field not found: '{name}' (scopes: {chain}; templates: {templates})"
  | shape message position templates =>
      s!"{position.describe}: {message} (templates: {templates})"
  | library name error position templates =>
      s!"{position.describe}: cannot load '{name}': {error.message} (templates: {templates})"
  | recursiveInclude name position templates =>
      s!"{position.describe}: recursive include of '{name}' (templates: {templates})"
  | includeDepth name depth position templates =>
      s!"{position.describe}: including '{name}' exceeds the maximum depth of {depth} " ++
        s!"(templates: {templates})"
  | token template error => s!"{template}: {error.message}"

end CompileError

end Stencil
