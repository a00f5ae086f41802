/-!
Places in a template.
-/

namespace Stencil

/-- A place in a template, counted from 1 in lines and in characters, with the text of its line. -/
structure Position where
  template : String
  line : Nat
  column : Nat
  lineText : String
  deriving DecidableEq, Repr

namespace Position

def unknown : Position := ⟨"", 0, 0, ""⟩

def describe (p : Position) : String := s!"{p.template}:{p.line}:{p.column}"

end Position

structure Cursor where
  line : Nat
  column : Nat
  deriving DecidableEq, Repr

namespace Cursor

def start : Cursor := ⟨1, 1⟩

def step (cursor : Cursor) (c : Char) : Cursor :=
  if c = '\n' then ⟨cursor.line + 1, 1⟩ else ⟨cursor.line, cursor.column + 1⟩

def advance (cursor : Cursor) (text : List Char) : Cursor := text.foldl step cursor

def position (template : String) (lines : Array String) (cursor : Cursor) : Position :=
  ⟨template, cursor.line, cursor.column, lines.getD (cursor.line - 1) ""⟩

end Cursor

end Stencil
