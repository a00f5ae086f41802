import Stencil.Compile.Error

/-!
Parent calls: the blocks that a caller gives between the tags of the call.
-/

namespace Stencil

structure GivenBlock where
  name : String
  tokens : List Token
  deriving DecidableEq, Repr

/-- A parent call whose tags are being read. `openNames` and `blocks` have the latest first. -/
structure ParentCall where
  parent : String
  position : Position
  openNames : List String
  inBlock : Bool
  blocks : List GivenBlock
  deriving DecidableEq, Repr

namespace ParentCall

def start (parent : String) (position : Position) : ParentCall :=
  ⟨parent, position, [parent], false, []⟩

/-- Adds a token to the block being read; text outside the blocks is no part of the call. -/
def keep (c : ParentCall) (token : Token) : ParentCall :=
  match c.inBlock, c.blocks with
  | true, block :: earlier => { c with blocks := ⟨block.name, block.tokens ++ [token]⟩ :: earlier }
  | _, _ => c

def openTag (c : ParentCall) (kind : TagKind) (name : String) (token : Token) :
    Except NestingError ParentCall :=
  if kind = .openBlock ∧ c.openNames.length = 1 then
    if c.blocks.any (·.name = name) then .error (.duplicateBlock c.parent name)
    else .ok { c with
      openNames := name :: c.openNames, inBlock := true, blocks := ⟨name, []⟩ :: c.blocks }
  else .ok ({ c with openNames := name :: c.openNames }.keep token)

def closeTag (c : ParentCall) (name : String) (token : Token) :
    Except NestingError (ParentCall × Bool) :=
  let expected := c.openNames.headD ""
  if expected ≠ name then .error (.mismatchedClose expected name)
  else
    let closed := { c with openNames := c.openNames.tail }
    match closed.openNames.length with
    | 0 => .ok (closed, true)
    | 1 =>
        if c.inBlock then .ok ({ closed with inBlock := false }, false)
        else .ok (closed.keep token, false)
    | _ => .ok (closed.keep token, false)

/-- Takes in the next token of the caller, and tells whether it closed the call. -/
def push (c : ParentCall) (token : Token) :
    Except NestingError (ParentCall × Bool) :=
  match token.kind with
  | .tag .close name => c.closeTag name token
  | .tag kind name =>
      if kind.isOpening then (c.openTag kind name token).map (·, false)
      else .ok (c.keep token, false)
  | .eof => .error (.unclosed c.parent)
  | _ => .ok (c.keep token, false)

def givenBlocks (c : ParentCall) : List GivenBlock := c.blocks.reverse

end ParentCall

/-- The blocks of the enclosing parent calls, innermost call first. -/
abbrev GivenBlocks := List (List GivenBlock)

def GivenBlocks.find? (given : GivenBlocks) (name : String) : Option (List Token) :=
  (given.flatten.find? (·.name = name)).map GivenBlock.tokens

end Stencil
