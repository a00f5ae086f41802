import Stencil.CommandLine.Arguments
import Stencil.Json.Reader
import Stencil.Program.Listing
import Stencil.Render.Template
import Stencil.Shape.Reader
import Stencil.Template.Directory

/-!
What a command line does with the files it names.
-/

namespace Stencil.CommandLine

structure Report where
  code : Nat
  output : String
  errors : String
  deriving DecidableEq, Repr

namespace Report

def success (output : String) : Report := ⟨0, output, ""⟩

def failure (message : String) : Report := ⟨1, "", message ++ "\n"⟩

def misuse : Report := ⟨2, "", ""⟩

end Report

def programName : String := "stache"

def readJson {α : Type} (tree : FileTree) (decode : String → Option α) (path : String) :
    Except String α :=
  match tree.readText path with
  | .error error => .error s!"Error reading {path}: {error.message}"
  | .ok text =>
      match decode text with
      | some value => .ok value
      | none => .error s!"Invalid JSON in {path}"

def decodeSchema (text : String) : Option Schema :=
  (Json.readWritten? Json.maxDepth text).bind Schema.ofWritten?

def decodeOptions (text : String) : Option Options :=
  (Json.readWritten? Json.maxDepth text).bind Options.ofWritten?

def readJsonOr {α : Type} (tree : FileTree) (decode : String → Option α) (absent : α)
    (path? : Option String) : Except String α :=
  match path? with
  | none => .ok absent
  | some path => readJson tree decode path

/-- Compiles the template of a command. Its partials are looked for beside it unless another
directory is named. -/
def compileInput (tree : FileTree) (input : Input) : Except String Program := do
  if !tree.isFile input.path then throw s!"Error: file not found: {input.path}"
  let schema ← readJsonOr tree decodeSchema .dynamic input.schema
  let options ← readJsonOr tree decodeOptions .default input.options
  let root := input.partials.getD ((Path.parent? input.path).getD "")
  let name := (Path.fileName? input.path).getD input.path
  let compiled : Except CompileError Program := do
    let template ← Template.ofFile tree name input.path
    Program.compile schema (TemplateDirectory.ofRoot tree root).library options template
  compiled.mapError fun error => s!"Compile error: {error.message}"

def renderInput (tree : FileTree) (input : Input) (data? context? : Option String)
    (escape : EscapeChoice) : Except String String := do
  let program ← compileInput tree input
  let data ← readJsonOr tree Json.read? (.object []) data?
  let context ← readJsonOr tree (fun text => (Json.read? text).map ContextNode.ofJson) .empty
    context?
  let renderer : Renderer := match escape with
    | .html => ⟨Escaper.html, []⟩
    | .none => ⟨Escaper.plain, []⟩
  (renderer.render program data context).mapError fun error => s!"Render error: {error.message}"

def perform (tree : FileTree) : Command → Report
  | .version => .success s!"{programName} {version}\n"
  | .check input =>
      match compileInput tree input with
      | .ok _ => ⟨0, "", s!"OK: {input.path}\n"⟩
      | .error message => .failure message
  | .render input data context escape =>
      match renderInput tree input data context escape with
      | .ok text => .success text
      | .error message => .failure message
  | .listing input =>
      match compileInput tree input with
      | .ok program => .success program.listing
      | .error message => .failure message

def run (tree : FileTree) (arguments : List String) : Report :=
  match command? arguments with
  | some command => perform tree command
  | none => .misuse

end Stencil.CommandLine
