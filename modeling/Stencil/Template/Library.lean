import Stencil.Compile.Error
import Stencil.Table
import Stencil.Template.Fragment
import Stencil.Template.Stack

/-!
Templates, and the libraries that those named in other templates come from.
-/

namespace Stencil

structure Template where
  name : String
  source : String
  deriving DecidableEq, Repr

/-- Finds and reads the template of a name used in the innermost template of a stack. -/
abbrev Library := String → TemplateStack → Except LibraryError Template

def Library.ofCatalog (catalog : Table String) : Library := fun name _ =>
  match catalog.get? name with
  | some source => .ok ⟨name, source⟩
  | none => .error (.notFound name)

/-- The template of a name, which may ask for a fragment. A fragment has the name of its template
and its own with a number sign between them. -/
def Library.fetch (library : Library) (name : String) (stack : TemplateStack)
    (position : Position) : Except CompileError Template := do
  let loading (error : LibraryError) : CompileError :=
    .library name error position stack.describe
  let (path, fragment?) := Fragment.ofName name
  let template ← (library path stack).mapError loading
  match fragment? with
  | none => return template
  | some fragment =>
      match ← (Fragment.find? template.name template.source fragment).mapError
          (.token template.name ·) with
      | some source => return ⟨s!"{template.name}#{fragment}", source⟩
      | none => throw (loading (.fragmentNotFound template.name fragment))

end Stencil
