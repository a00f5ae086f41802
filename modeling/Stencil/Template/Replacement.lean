import Stencil.Template.Inheritance

/-!
Replacing the blocks of a parent: the content of every outermost block that a call gives tokens for
gives way to those tokens.
-/

namespace Stencil

/-- The tokens of a parent part way through: how many tags are open, and which block at which depth
has its content replaced. -/
structure BlockReplacement where
  blocks : GivenBlocks
  depth : Nat
  replacing : Option (String × Nat)
  deriving DecidableEq, Repr

namespace BlockReplacement

def start (blocks : GivenBlocks) : BlockReplacement := ⟨blocks, 0, none⟩

def replace (s : BlockReplacement) (token : Token) : List Token × BlockReplacement :=
  match token.kind with
  | .tag .close name =>
      let outer := { s with depth := s.depth - 1 }
      match s.replacing with
      | some (block, depth) =>
          if depth = s.depth ∧ block = name then ([token], { outer with replacing := none })
          else ([], outer)
      | none => ([token], outer)
  | .tag kind name =>
      if kind.isOpening then
        let inner := { s with depth := s.depth + 1 }
        if s.replacing.isSome then ([], inner)
        else
          match (if kind = .openBlock then s.blocks.find? name else none) with
          | some tokens => (token :: tokens, { inner with replacing := some (name, s.depth + 1) })
          | none => ([token], inner)
      else if s.replacing.isSome then ([], s)
      else ([token], s)
  | .eof => ([token], { s with replacing := none })
  | _ => if s.replacing.isSome then ([], s) else ([token], s)

def replaceAll (s : BlockReplacement) : List Token → List Token
  | [] => []
  | token :: rest =>
      let (tokens, next) := s.replace token
      tokens ++ next.replaceAll rest

end BlockReplacement

end Stencil
