/-!
Command lines: a subcommand, a path, and options with values.
-/

namespace Stencil.CommandLine

inductive EscapeChoice where
  | html
  | none
  deriving DecidableEq, Repr

structure Input where
  path : String
  schema : Option String
  partials : Option String
  options : Option String
  deriving DecidableEq, Repr

inductive Command where
  | version
  | check (input : Input)
  | render (input : Input) (data context : Option String) (escape : EscapeChoice)
  | listing (input : Input)
  deriving DecidableEq, Repr

structure Words where
  paths : List String
  options : List (String × String)
  deriving DecidableEq, Repr

namespace Words

def empty : Words := ⟨[], []⟩

def addPath? (words : Words) (path : String) : Option Words :=
  if path.isEmpty || !words.paths.isEmpty then none else some { words with paths := [path] }

def addOption? (words : Words) (known : List String) (name value : String) : Option Words :=
  if !known.contains name || value.isEmpty || (words.options.lookup name).isSome then none
  else some { words with options := (name, value) :: words.options }

end Words

def isOption (word : String) : Bool :=
  match word.toList with
  | '-' :: _ :: _ => true
  | _ => false

def longOption? (word : String) : Option (String × Option String) :=
  match word.toList with
  | '-' :: '-' :: rest =>
      let name := rest.takeWhile (· ≠ '=')
      let value := match rest.dropWhile (· ≠ '=') with
        | _ :: value => some (String.ofList value)
        | [] => none
      some (String.ofList name, value)
  | _ => none

/-- Reads the words after a subcommand. After two dashes every word is a path. -/
def readWords? (known : List String) (words : Words) : List String → Option Words
  | [] => some words
  | "--" :: rest => rest.foldlM Words.addPath? words
  | word :: rest =>
      match longOption? word with
      | some (name, some value) => do
          readWords? known (← words.addOption? known name value) rest
      | some (name, none) =>
          match rest with
          | value :: rest =>
              if isOption value then none
              else do readWords? known (← words.addOption? known name value) rest
          | [] => none
      | none =>
          if isOption word then none else do readWords? known (← words.addPath? word) rest

def inputOptions : List String := ["schema", "partials", "options"]

def renderOptions : List String := inputOptions ++ ["data", "context", "escape"]

def Words.input? (words : Words) : Option Input :=
  match words.paths with
  | [path] =>
      some ⟨path, words.options.lookup "schema", words.options.lookup "partials",
        words.options.lookup "options"⟩
  | _ => none

def Words.escape? (words : Words) : Option EscapeChoice :=
  match words.options.lookup "escape" with
  | none | some "html" => some .html
  | some "none" => some .none
  | some _ => none

def command? : List String → Option Command
  | "check" :: rest => do
      return .check (← (← readWords? inputOptions .empty rest).input?)
  | "listing" :: rest => do
      return .listing (← (← readWords? inputOptions .empty rest).input?)
  | "render" :: rest => do
      let words ← readWords? renderOptions .empty rest
      return .render (← words.input?) (words.options.lookup "data")
        (words.options.lookup "context") (← words.escape?)
  | word :: _ =>
      if word = "--version" ∨ ['-', 'V'].isPrefixOf word.toList then some .version else none
  | [] => none

end Stencil.CommandLine
