import Stencil.Text.Lines

/-!
Paths as text: pieces between slashes, of which empty ones and single dots mean nothing, except a
dot at the very beginning.
-/

namespace Stencil.Path

def pieces (path : String) : List String :=
  (Text.splitOn '/' path.toList).map String.ofList

def isAbsolute (path : String) : Bool := path.toList.head? = some '/'

def isComponent (piece : String) : Bool := piece ≠ "" && piece ≠ "."

/-- The components of a path, the root of an absolute path being one. -/
def components (path : String) : List String :=
  match pieces path with
  | [] => []
  | first :: rest =>
      let lead :=
        if isAbsolute path then ["/"] else if first.isEmpty then [] else [first]
      lead ++ rest.filter isComponent

def trimEnd (pieces : List String) : List String :=
  (pieces.reverse.dropWhile (!isComponent ·)).reverse

/-- The path without its last component, unless it has none or is the root. -/
def parent? (path : String) : Option String :=
  match pieces path with
  | [] => none
  | first :: rest =>
      let named := trimEnd rest
      if named.isEmpty then
        if isAbsolute path || first.isEmpty then none else some ""
      else
        let above := first :: trimEnd named.dropLast
        if isAbsolute path && above.length = 1 then some "/" else some ("/".intercalate above)

def fileName? (path : String) : Option String :=
  match (components path).getLast? with
  | some name => if name = "/" || name = "." || name = ".." then none else some name
  | none => none

def hasExtension (path : String) : Bool :=
  match fileName? path with
  | some name => name.toList.tail.contains '.'
  | none => false

/-- A path below another one; an absolute path stands for itself. -/
def join (base path : String) : String :=
  if isAbsolute path || base.isEmpty then path
  else if base.toList.getLast? = some '/' then base ++ path
  else base ++ "/" ++ path

end Stencil.Path
