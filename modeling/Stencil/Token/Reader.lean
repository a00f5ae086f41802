import Stencil.Token.Lexeme

/-!
Reading a template as tokens, with the place of each.
-/

namespace Stencil

structure TokenError where
  fault : TagFault
  line : Nat
  column : Nat
  deriving DecidableEq, Repr

def TokenError.message (error : TokenError) : String :=
  s!"Lexer error at line {error.line}, column {error.column}: {error.fault.message}"

def Lexeme.tokens (place : Cursor → Position) (d : Delimiters) (cursor : Cursor)
    (cs : List Char) : Except TokenError (List Token) :=
  match cs with
  | [] => .ok [⟨.eof, place cursor, ""⟩]
  | c :: rest =>
      match _read : ahead d c rest with
      | .error fault => .error ⟨fault, cursor.line, cursor.column⟩
      | .ok l =>
          match tokens place l.delimiters (cursor.advance l.raw) l.rest with
          | .error error => .error error
          | .ok later => .ok (⟨l.kind, place cursor, String.ofList l.raw⟩ :: later)
  termination_by cs.length
  decreasing_by exact length_rest_lt _read

/-- The tokens of a template, the last of them marking its end. -/
def tokenize (template source : String) : Except TokenError (List Token) :=
  let cs := source.toList
  let lines := (Text.lines cs).map fun line => String.ofList (Text.dropReturn line)
  Lexeme.tokens (Cursor.position template lines.toArray) .standard .start cs

end Stencil
