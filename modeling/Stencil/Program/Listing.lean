import Stencil.Program.Basic

/-!
Listings of programs: one line for each instruction, indented by its depth.
-/

namespace Stencil.Program

def lineOf : Instruction → String
  | .literal text => "text " ++ Text.quoted text
  | .value expr .escaped => "value " ++ expr.describe
  | .value expr .raw => "raw " ++ expr.describe
  | .conditional guard _ => "section " ++ guard.describe
  | .inverted guard _ => "inverted " ++ guard.describe
  | .inclusion name _ => "partial " ++ name
  | .block name _ => "block " ++ name
  | .lambda call _ => s!"lambda {call.name} on {call.current.describe} {Text.quoted call.body}"

mutual

def listInstruction (depth : Nat) (instruction : Instruction) : String :=
  let line := String.join (List.replicate depth "  ") ++ lineOf instruction ++ "\n"
  match instruction with
  | .literal _ | .value _ _ | .lambda _ none => line
  | .conditional _ body | .inverted _ body | .inclusion _ body | .block _ body
  | .lambda _ (some body) => line ++ listAll (depth + 1) body

def listAll (depth : Nat) : List Instruction → String
  | [] => ""
  | instruction :: rest => listInstruction depth instruction ++ listAll depth rest

end

def listing (program : Program) : String := listAll 0 program.instructions

end Stencil.Program
