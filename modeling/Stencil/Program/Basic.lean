import Stencil.Program.Event

/-!
Programs: compiled templates as trees of instructions, with adjacent literals joined.
-/

namespace Stencil

/-- A step of a program. The body of a lambda is the compiled template for its model. -/
inductive Instruction where
  | literal (text : String)
  | value (expr : Expr) (escaping : Escaping)
  | conditional (guard : Guard) (body : List Instruction)
  | inverted (guard : Guard) (body : List Instruction)
  | inclusion (name : String) (body : List Instruction)
  | block (name : String) (body : List Instruction)
  | lambda (call : LambdaCall) (body : Option (List Instruction))

inductive Construct where
  | conditional (guard : Guard)
  | inverted (guard : Guard)
  | inclusion (name : String)
  | block (name : String)
  deriving DecidableEq, Repr

def Construct.close : Construct → List Instruction → Instruction
  | conditional guard, body => .conditional guard body
  | inverted guard, body => .inverted guard body
  | inclusion name, body => .inclusion name body
  | block name, body => .block name body

/-- A compiled template. `written` holds the finished instructions, latest first, and
`unfinished` the open constructs, innermost first, each with the instructions that it has so far,
latest first. -/
structure Program where
  name : String
  written : List Instruction
  unfinished : List (Construct × List Instruction)

namespace Program

def empty (name : String) : Program := ⟨name, [], []⟩

def instructions (program : Program) : List Instruction := program.written.reverse

def modifyCurrent (program : Program) (change : List Instruction → List Instruction) : Program :=
  match program.unfinished with
  | (construct, body) :: outer => { program with unfinished := (construct, change body) :: outer }
  | [] => { program with written := change program.written }

def push (program : Program) (instruction : Instruction) : Program :=
  program.modifyCurrent (instruction :: ·)

def appendText (text : String) : List Instruction → List Instruction
  | .literal before :: earlier => .literal (before ++ text) :: earlier
  | body => .literal text :: body

def pushText (program : Program) (text : String) : Program :=
  if text.isEmpty then program else program.modifyCurrent (appendText text)

def openConstruct (program : Program) (construct : Construct) : Program :=
  { program with unfinished := (construct, []) :: program.unfinished }

/-- Completes the innermost open construct; where nothing is open there is nothing to do. -/
def closeConstruct (program : Program) : Program :=
  match program.unfinished with
  | (construct, body) :: outer =>
      { program with unfinished := outer }.push (construct.close body.reverse)
  | [] => program

def call (program : Program) : Call → Program
  | .literal text => program.pushText text
  | .value expr escaping => program.push (.value expr escaping)
  | .enterSection guard => program.openConstruct (.conditional guard)
  | .enterInverted guard => program.openConstruct (.inverted guard)
  | .enterPartial name => program.openConstruct (.inclusion name)
  | .enterBlock name => program.openConstruct (.block name)
  | .exitSection | .exitInverted | .exitPartial | .exitBlock => program.closeConstruct

def lambda (program : Program) (call : LambdaCall)
    (template : Program → Program × Option CompileError) : Program × Option CompileError :=
  match call.kind with
  | .raw => (program.push (.lambda call none), none)
  | .model _ =>
      match template (empty call.name) with
      | (nested, none) => (program.push (.lambda call (some nested.instructions)), none)
      | (_, some error) => (program, some error)

def sink : Sink Program := ⟨call, lambda⟩

def ofEvents (name : String) (events : List Event) : Except CompileError Program :=
  match sink.feed (empty name) events with
  | (program, none) => .ok program
  | (_, some error) => .error error

end Program

end Stencil
