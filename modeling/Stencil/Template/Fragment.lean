import Stencil.Token.LineGroup
import Stencil.Token.Reader

/-!
Fragments. A name `page#item` stands for the body of the first section or block `item` of the
template `page`. Standalone lines of the fragment's own tags are dropped, and the indentation of
its opening tag is taken off its lines when every line has it.
-/

namespace Stencil.Fragment

def ofName (name : String) : String × Option String :=
  match Text.cutAt? ['#'] name.toList with
  | some (template, fragment) => (String.ofList template, some (String.ofList fragment))
  | none => (name, none)

/-- Takes the indentation off every line that has it, if every line that is not blank has it. -/
def outdent (body indent : String) : String :=
  let lines := Text.keptLines body.toList
  let mark := indent.toList
  if lines.all fun line => line.all Text.isBlank || mark.isPrefixOf line then
    String.ofList (lines.flatMap fun line => (Text.after? mark line).getD line)
  else body

structure Selected where
  depth : Nat
  indent : String
  deriving DecidableEq, Repr

/-- A search part way through a template. `line` holds the group being read, and `found` the
fragment once its end tag is reached. -/
structure Search where
  depth : Nat
  selected : Option Selected
  body : String
  line : List LineToken
  lineIndent : String
  openedHere : Bool
  found : Option String
  deriving DecidableEq, Repr

namespace Search

def start : Search := ⟨0, none, "", [], "", false, none⟩

def normalText (line : List LineToken) : String :=
  String.join ((line.filter (·.role = .normal)).map (·.token.raw))

def fullText (line : List LineToken) : String := String.join (line.map (·.token.raw))

/-- Reads a token of the current group that is not the fragment's own tag. -/
def keep (s : Search) (t : LineToken) : Search :=
  { s with
    line := s.line ++ [t]
    lineIndent := if t.role = .indent then t.token.raw else s.lineIndent }

def step (fragment : String) (s : Search) (t : LineToken) : Search :=
  if s.found.isSome then s
  else
    match t.token.kind with
    | .tag .close _ =>
        match s.selected.filter (·.depth = s.depth) with
        | some selected =>
            { s with found := some (outdent (s.body ++ normalText s.line) selected.indent) }
        | none => { s with depth := s.depth - 1 }.keep t
    | .tag kind name =>
        if kind.isOpening then
          let deeper := { s with depth := s.depth + 1 }
          if s.selected.isNone ∧ (kind = .openSection ∨ kind = .openBlock) ∧ name = fragment then
            { deeper with
              selected := some ⟨s.depth + 1, s.lineIndent⟩
              line := []
              lineIndent := ""
              openedHere := true }
          else deeper.keep t
        else s.keep t
    | _ => s.keep t

def endGroup (s : Search) : Search :=
  let text :=
    if s.selected.isNone then ""
    else if s.openedHere then normalText s.line
    else fullText s.line
  { s with body := s.body ++ text, line := [], lineIndent := "", openedHere := false }

def group (fragment : String) (s : Search) (g : LineGroup) : Search :=
  (g.foldl (step fragment) s).endGroup

end Search

/-- The text of a fragment of a template, if there is one. -/
def find? (template source fragment : String) : Except TokenError (Option String) := do
  let tokens ← tokenize template source
  return ((LineClassifier.groupsOf tokens).foldl (Search.group fragment) Search.start).found

end Stencil.Fragment
