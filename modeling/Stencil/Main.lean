import Stencil.CommandLine.Run

/-!
The program: reads the files that a command line may need, and does what it says.
-/

namespace Stencil.Main

def searchDepth : Nat := 32

def pathOf (place : List String) : String := "/" ++ "/".intercalate place

def addFile (tree : FileTree) (place : List String) : IO FileTree := do
  try
    let bytes ← IO.FS.readBinFile (pathOf place)
    return { tree with files := (place, bytes) :: tree.files }
  catch _ => return tree

def addPlace : Nat → FileTree → List String → IO FileTree
  | depth, tree, place => do
      let path := (← IO.currentDir) / pathOf place
      if ← path.isDir then
        let tree := { tree with directories := place :: tree.directories }
        match depth with
        | 0 => return tree
        | depth + 1 =>
            let names := (← path.readDir).toList.map (·.fileName)
            names.foldlM (fun tree name => addPlace depth tree (place ++ [name])) tree
      else addFile tree place

def placesOn (home : List String) (path : String) : List (List String) :=
  let pieces := Path.pieces path
  (List.range (pieces.length + 1)).map fun count =>
    (pieces.take count).foldl TemplateDirectory.followPiece
      (if Path.isAbsolute path then [] else home)

def addPath (depth : Nat) (tree : FileTree) (path : String) : IO FileTree := do
  let places := placesOn tree.home path
  let tree ← places.dropLast.foldlM (addPlace 0) tree
  (places.getLast?.toList).foldlM (addPlace depth) tree

def namedFiles : CommandLine.Command → List String
  | .version => []
  | .check input | .listing input => ofInput input
  | .render input data context _ => ofInput input ++ data.toList ++ context.toList
where
  ofInput (input : CommandLine.Input) : List String :=
    input.path :: input.schema.toList ++ input.options.toList

def partialsOf? : CommandLine.Command → Option String
  | .version => none
  | .check input | .listing input | .render input _ _ _ =>
      some (input.partials.getD ((Path.parent? input.path).getD ""))

def filesFor (command : CommandLine.Command) : IO FileTree := do
  let home := (← IO.currentDir).components.filter Path.isComponent
  let tree ← (namedFiles command).foldlM (addPath 0) ⟨[], [], home⟩
  (partialsOf? command).toList.foldlM (addPath searchDepth) tree

end Stencil.Main

def main (arguments : List String) : IO UInt32 := do
  let tree ← match Stencil.CommandLine.command? arguments with
    | some command => Stencil.Main.filesFor command
    | none => pure ⟨[], [], []⟩
  let report := Stencil.CommandLine.run tree arguments
  IO.print report.output
  IO.eprint report.errors
  return UInt32.ofNat report.code
