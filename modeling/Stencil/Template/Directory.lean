import Stencil.Files.Tree
import Stencil.Template.Library

/-!
Libraries of files under a directory. Names that start with `./` or `../` are relative to the
directory of the template they stand in.
-/

namespace Stencil

def Template.ofFile (tree : FileTree) (name path : String) : Except CompileError Template :=
  match tree.readText path with
  | .ok source => .ok ⟨name, source⟩
  | .error error => .error (.library name (.unreadable path error.message) .unknown name)

/-- Templates in the files under a directory. -/
structure TemplateDirectory where
  tree : FileTree
  root : String
  /-- The extension that a name may leave out. -/
  extension : String

namespace TemplateDirectory

def ofRoot (tree : FileTree) (root : String) : TemplateDirectory := ⟨tree, root, "mustache"⟩

def withExtension (directory : TemplateDirectory) (extension : String) : TemplateDirectory :=
  { directory with extension := String.ofList (extension.toList.dropWhile (· = '.')) }

def isRelative (name : String) : Bool :=
  ['.', '/'].isPrefixOf name.toList || ['.', '.', '/'].isPrefixOf name.toList

/-- Follows one piece of a relative name; going up from the top leads nowhere. -/
def followPiece (parts : List String) (piece : String) : List String :=
  if piece = ".." then parts.dropLast
  else if Path.isComponent piece then parts ++ [piece]
  else parts

/-- The name from the root for a name used in the template `caller`. -/
def fullName (name caller : String) : String :=
  if isRelative name then
    let base := Path.components ((Path.parent? caller).getD "")
    "/".intercalate ((Path.pieces name).foldl followPiece base)
  else name

def path (directory : TemplateDirectory) (name : String) : String :=
  Path.join directory.root name

/-- The full name of the file for a name: as it is, or else with the extension if it has none. -/
def locate (directory : TemplateDirectory) (name : String) (stack : TemplateStack) :
    Except LibraryError String :=
  let full := fullName name stack.top.name
  if directory.tree.isFile (directory.path full) then .ok full
  else
    let extended := s!"{full}.{directory.extension}"
    if !Path.hasExtension full && directory.tree.isFile (directory.path extended) then
      .ok extended
    else .error (.notFound name)

def read (directory : TemplateDirectory) (name : String) : Except LibraryError String :=
  let path := directory.path name
  (directory.tree.readText path).mapError fun error => .unreadable path error.message

def library (directory : TemplateDirectory) : Library := fun name stack => do
  let found ← directory.locate name stack
  return ⟨found, ← directory.read found⟩

end TemplateDirectory

end Stencil
