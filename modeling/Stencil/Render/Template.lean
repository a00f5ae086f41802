import Stencil.Compile.Basic
import Stencil.Render.Basic

/-!
Compiling and rendering in one go.
-/

namespace Stencil

def version : String := "0.7.0"

def Renderer.renderTemplate (renderer : Renderer) (schema : Schema) (library : Library)
    (options : Options) (template : Template) (data : Json) (context : ContextNode) :
    Except TemplateError String := do
  let program ← (Program.compile schema library options template).mapError .compile
  (renderer.render program data context).mapError .render

def namelessTemplate : String := "template"

def renderText (source : String) (data : Json) (library : Library) : Except TemplateError String :=
  Renderer.plain.renderTemplate .dynamic library .default ⟨namelessTemplate, source⟩ data .empty

def catalogOfEntries : List (String × Json) → Except String (Table String)
  | [] => .ok []
  | (name, .string source) :: rest => do return ((name, source) :: (← catalogOfEntries rest))
  | (name, _) :: _ => .error s!"partial '{name}' must be a string"

/-- The text of a template for data of any shape, with values escaped for HTML. The partials are an
object of texts; any other value stands for none. -/
def renderHtml (source : String) (data partials : Json) : Except String String := do
  let catalog ← catalogOfEntries (partials.asObject?.getD [])
  let renderer : Renderer := ⟨Escaper.html, []⟩
  (renderer.renderTemplate .dynamic (.ofCatalog catalog) .default ⟨namelessTemplate, source⟩ data
    .empty).mapError TemplateError.message

end Stencil
