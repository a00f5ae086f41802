import Stencil.Files.Path

/-!
A tree of files with a working directory, and reading texts from it.
-/

namespace Stencil

/-- Files, and directories that need not hold any, each with its components from the root. The
directories around a file are there with it. `home` is the working directory. -/
structure FileTree where
  files : List (List String × ByteArray)
  directories : List (List String)
  home : List String

inductive FileError where
  | notFound
  | notDirectory
  | isDirectory
  | nameTooLong
  | nulInPath
  | notText
  deriving DecidableEq, Repr

def FileError.message : FileError → String
  | notFound => "No such file or directory (os error 2)"
  | notDirectory => "Not a directory (os error 20)"
  | isDirectory => "Is a directory (os error 21)"
  | nameTooLong => "File name too long (os error 36)"
  | nulInPath => "file name contained an unexpected NUL byte"
  | notText => "stream did not contain valid UTF-8"

namespace FileTree

def maxNameBytes : Nat := 255

def maxPathBytes : Nat := 4095

def file? (tree : FileTree) (components : List String) : Option ByteArray :=
  tree.files.lookup components

def isDirectory (tree : FileTree) (components : List String) : Bool :=
  components.isPrefixOf tree.home || tree.directories.any components.isPrefixOf ||
    tree.files.any fun file =>
      components.length < file.1.length && components.isPrefixOf file.1

/-- Follows one piece of a path. The root is its own parent. -/
def follow (tree : FileTree) (place : List String) (piece : String) :
    Except FileError (List String) :=
  if !tree.isDirectory place then .error .notDirectory
  else if !Path.isComponent piece then .ok place
  else if piece = ".." then .ok place.dropLast
  else if maxNameBytes < piece.utf8ByteSize then .error .nameTooLong
  else
    let next := place ++ [piece]
    if (tree.file? next).isSome || tree.isDirectory next then .ok next else .error .notFound

/-- The place that a path leads to. -/
def locate (tree : FileTree) (path : String) : Except FileError (List String) :=
  if path.isEmpty then .error .notFound
  else if path.toList.contains '\x00' then .error .nulInPath
  else if maxPathBytes < path.utf8ByteSize then .error .nameTooLong
  else (Path.pieces path).foldlM tree.follow (if Path.isAbsolute path then [] else tree.home)

def isFile (tree : FileTree) (path : String) : Bool :=
  match tree.locate path with
  | .ok place => (tree.file? place).isSome
  | .error _ => false

def readText (tree : FileTree) (path : String) : Except FileError String := do
  let place ← tree.locate path
  match tree.file? place with
  | none => throw .isDirectory
  | some bytes =>
      match String.fromUTF8? bytes with
      | some text => return text
      | none => throw .notText

end FileTree

end Stencil
