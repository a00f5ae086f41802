import Mathlib.Data.List.Chain
import Stencil.Proofs.Program.Spelling

/-!
Trees of instructions and the calls that make them. Main statement: joining the adjacent literals of
a tree joins those of its calls, and leaves no literal empty or beside another one.
-/

namespace Stencil

/-- A call as a program keeps it. The calls of a lambda's template belong to it if the lambda
returns a model. -/
inductive KeptCall where
  | call (call : Call)
  | lambda (call : LambdaCall) (template : Option (List KeptCall))

def prependText (text : String) : List KeptCall → List KeptCall
  | .call (.literal more) :: rest => .call (.literal (text ++ more)) :: rest
  | rest => if text.isEmpty then rest else .call (.literal text) :: rest

mutual

def KeptCall.joinBefore (later : List KeptCall) : KeptCall → List KeptCall
  | .call (.literal text) => prependText text later
  | .call plain => .call plain :: later
  | .lambda call none => .lambda call none :: later
  | .lambda call (some inner) => .lambda call (some (joinTexts inner)) :: later

/-- Calls with adjacent literals joined and empty ones left out. -/
def joinTexts : List KeptCall → List KeptCall
  | [] => []
  | call :: rest => call.joinBefore (joinTexts rest)

end

mutual

def Instruction.walk : Instruction → List KeptCall
  | .literal text => [.call (.literal text)]
  | .value expr escaping => [.call (.value expr escaping)]
  | .conditional guard body =>
      .call (.enterSection guard) :: (walkAll body ++ [.call .exitSection])
  | .inverted guard body =>
      .call (.enterInverted guard) :: (walkAll body ++ [.call .exitInverted])
  | .inclusion name body => .call (.enterPartial name) :: (walkAll body ++ [.call .exitPartial])
  | .block name body => .call (.enterBlock name) :: (walkAll body ++ [.call .exitBlock])
  | .lambda call none => [.lambda call none]
  | .lambda call (some body) => [.lambda call (some (walkAll body))]

def walkAll : List Instruction → List KeptCall
  | [] => []
  | instruction :: rest => instruction.walk ++ walkAll rest

end

def Instruction.isLiteral : Instruction → Bool
  | .literal _ => true
  | _ => false

def Instruction.Apart (first second : Instruction) : Prop :=
  ¬(first.isLiteral = true ∧ second.isLiteral = true)

mutual

def Instruction.IsTidy : Instruction → Prop
  | .literal text => text ≠ ""
  | .value _ _ | .lambda _ none => True
  | .conditional _ body | .inverted _ body | .inclusion _ body | .block _ body
  | .lambda _ (some body) => AllTidy body

/-- That no literal is empty or stands beside another one, in a body or in those inside it. -/
def AllTidy : List Instruction → Prop
  | [] => True
  | instruction :: rest =>
      instruction.IsTidy ∧ (∀ next ∈ rest.head?, instruction.Apart next) ∧ AllTidy rest

end

theorem walkAll_append (first second : List Instruction) :
    walkAll (first ++ second) = walkAll first ++ walkAll second := by
  induction first with
  | nil => rfl
  | cons instruction rest ih => simp only [List.cons_append, walkAll, ih, List.append_assoc]

theorem walkAll_singleton (instruction : Instruction) : walkAll [instruction] = instruction.walk :=
  List.append_nil _

theorem walk_close (construct : Construct) (body : List Instruction) :
    (construct.close body).walk =
      .call construct.enter :: (walkAll body ++ [.call construct.exit]) := by
  cases construct <;> rfl

def glue : List KeptCall → List KeptCall → List KeptCall
  | .call (.literal before) :: earlier, .call (.literal more) :: later =>
      earlier.reverse ++ .call (.literal (before ++ more)) :: later
  | earlier, later => earlier.reverse ++ later

section

variable {written : List Instruction} {earlier later more : List KeptCall}

theorem glue_nil (earlier : List KeptCall) : glue earlier [] = earlier.reverse := by
  unfold glue
  simp

theorem nil_glue (later : List KeptCall) : glue [] later = later := rfl

theorem glue_literals (before more : String) :
    glue (.call (.literal before) :: earlier) (.call (.literal more) :: later) =
      earlier.reverse ++ .call (.literal (before ++ more)) :: later := rfl

theorem glue_apart {last : KeptCall} (apart : ∀ text, last ≠ .call (.literal text)) :
    glue (last :: earlier) later = earlier.reverse ++ last :: later := by
  rw [glue]
  · simp
  · intro before _ _ _ same
    cases same
    exact absurd rfl (apart before)

theorem apart_glue {first : KeptCall} (apart : ∀ text, first ≠ .call (.literal text)) :
    glue earlier (first :: later) = earlier.reverse ++ first :: later := by
  rw [glue]
  intro _ _ more _ _ same
  cases same
  exact absurd rfl (apart more)

theorem exit_ne_literal (construct : Construct) (text : String) :
    KeptCall.call construct.exit ≠ .call (.literal text) := by
  cases construct <;> simp [Construct.exit]

theorem enter_ne_literal (construct : Construct) (text : String) :
    KeptCall.call construct.enter ≠ .call (.literal text) := by
  cases construct <;> simp [Construct.enter]

def walkBack (written : List Instruction) : List KeptCall := (walkAll written.reverse).reverse

theorem walkBack_cons (instruction : Instruction) (written : List Instruction) :
    walkBack (instruction :: written) = instruction.walk.reverse ++ walkBack written := by
  simp only [walkBack, List.reverse_cons, walkAll_append, walkAll_singleton, List.reverse_append]

theorem reverse_walkBack (written : List Instruction) :
    (walkBack written).reverse = walkAll written.reverse := List.reverse_reverse _

theorem walkBack_glue (apart : ∀ text rest, written ≠ .literal text :: rest)
    (later : List KeptCall) : glue (walkBack written) later = walkAll written.reverse ++ later := by
  cases written with
  | nil => rfl
  | cons instruction rest =>
      rw [← reverse_walkBack, walkBack_cons]
      have closed (construct : Construct) (body : List Instruction) :
          glue ((construct.close body).walk.reverse ++ walkBack rest) later =
            ((construct.close body).walk.reverse ++ walkBack rest).reverse ++ later := by
        rw [walk_close, List.reverse_cons, List.reverse_append]
        simp only [List.reverse_cons, List.reverse_nil, List.nil_append, List.cons_append]
        rw [glue_apart (exit_ne_literal construct)]
        simp
      cases instruction with
      | literal text => exact absurd rfl (apart text rest)
      | conditional guard body => exact closed (.conditional guard) body
      | inverted guard body => exact closed (.inverted guard) body
      | inclusion name body => exact closed (.inclusion name) body
      | block name body => exact closed (.block name) body
      | value expr escaping =>
          simp only [Instruction.walk, List.reverse_cons, List.reverse_nil, List.nil_append,
            List.cons_append]
          rw [glue_apart (by simp)]
          simp
      | lambda call template =>
          cases template <;>
          · simp only [Instruction.walk, List.reverse_cons, List.reverse_nil, List.nil_append,
              List.cons_append]
            rw [glue_apart (by simp)]
            simp

theorem prependText_apart {text : String} (filled : text.isEmpty = false)
    (apart : ∀ more rest, later ≠ .call (.literal more) :: rest) :
    prependText text later = .call (.literal text) :: later := by
  rw [prependText, filled]
  · rfl
  · exact apart

theorem glue_literal {text : String} (apart : ∀ more rest, later ≠ .call (.literal more) :: rest) :
    glue (.call (.literal text) :: earlier) later =
      earlier.reverse ++ .call (.literal text) :: later := by
  rw [glue]
  · simp
  · intro _ _ more rest _
    exact apart more rest

theorem walkBack_appendText {text : String} (filled : text.isEmpty = false)
    (later : List KeptCall) :
    glue (walkBack (Program.appendText text written)) later =
      glue (walkBack written) (prependText text later) := by
  have literal (text : String) (rest : List Instruction) :
      walkBack (.literal text :: rest) = .call (.literal text) :: walkBack rest := walkBack_cons _ _
  by_cases follows : ∃ more rest, later = .call (.literal more) :: rest
  · obtain ⟨more, rest, rfl⟩ := follows
    unfold Program.appendText
    split
    · simp only [literal, prependText, glue_literals, String.append_assoc]
    · next written apart =>
        rw [walkBack_glue fun text rest same => apart text rest same, literal, glue_literals,
          reverse_walkBack]
        rfl
  · have free (more : String) (rest : List KeptCall) : later ≠ .call (.literal more) :: rest :=
      fun same => follows ⟨more, rest, same⟩
    rw [prependText_apart filled free]
    unfold Program.appendText
    split
    · simp only [literal, glue_literal free, glue_literals]
    · next written apart =>
        rw [walkBack_glue fun text rest same => apart text rest same, literal, glue_literal free,
          reverse_walkBack]

theorem joinTexts_cons {call : KeptCall} (rest : List KeptCall) :
    joinTexts (call :: rest) = call.joinBefore (joinTexts rest) := rfl

theorem joinBefore_call {call : Call} (apart : ∀ text, KeptCall.call call ≠ .call (.literal text)) :
    (KeptCall.call call).joinBefore later = .call call :: later := by
  cases call with
  | literal text => exact absurd rfl (apart text)
  | _ => rfl

theorem prependText_empty {text : String} (empty : text.isEmpty = true) :
    prependText text later = later := by
  have none : text = "" := by simpa using empty
  unfold prependText
  split
  · rw [none, String.empty_append]
  · rw [if_pos empty]

theorem walkBack_close (construct : Construct) {body : List Instruction}
    (inside : ∀ more, glue (walkBack (joinOnto [] body)) (joinTexts more) =
      joinTexts (walkAll body ++ more)) (more : List KeptCall) :
    glue (walkBack (construct.close (joined body) :: written)) (joinTexts more) =
      glue (walkBack written) (joinTexts ((construct.close body).walk ++ more)) := by
  have within := inside (.call construct.exit :: more)
  have exit := exit_ne_literal construct
  rw [joinTexts_cons, joinBefore_call exit, apart_glue exit, reverse_walkBack] at within
  rw [walk_close, List.cons_append, List.append_assoc, List.singleton_append, joinTexts_cons,
    joinBefore_call (enter_ne_literal construct), apart_glue (enter_ne_literal construct), ← within,
    walkBack_cons, walk_close, List.reverse_cons, List.reverse_append]
  simp only [List.reverse_cons, List.reverse_nil, List.nil_append, List.cons_append, joined]
  rw [glue_apart exit]
  simp

mutual

theorem walkBack_addJoined (written : List Instruction) (instruction : Instruction)
    (more : List KeptCall) :
    glue (walkBack (addJoined written instruction)) (joinTexts more) =
      glue (walkBack written) (joinTexts (instruction.walk ++ more)) := by
  cases instruction with
  | literal text =>
      simp only [addJoined, Instruction.walk, List.singleton_append, joinTexts_cons,
        KeptCall.joinBefore]
      split
      · next empty => rw [prependText_empty empty]
      · next filled => exact walkBack_appendText (by simpa using filled) _
  | value expr escaping =>
      simp only [addJoined, Instruction.walk, List.singleton_append, joinTexts_cons, walkBack_cons,
        KeptCall.joinBefore, List.reverse_singleton]
      rw [glue_apart (by simp), apart_glue (by simp)]
  | conditional guard body =>
      exact walkBack_close (.conditional guard) (walkBack_joinOnto [] body) more
  | inverted guard body => exact walkBack_close (.inverted guard) (walkBack_joinOnto [] body) more
  | inclusion name body => exact walkBack_close (.inclusion name) (walkBack_joinOnto [] body) more
  | block name body => exact walkBack_close (.block name) (walkBack_joinOnto [] body) more
  | lambda call template =>
      cases template with
      | none =>
          simp only [addJoined, Instruction.walk, List.singleton_append, joinTexts_cons,
            walkBack_cons, KeptCall.joinBefore, List.reverse_singleton]
          rw [glue_apart (by simp), apart_glue (by simp)]
      | some body =>
          have inside := walkBack_joinOnto [] body []
          rw [List.append_nil] at inside
          simp only [joinTexts, glue_nil, nil_glue, walkBack, List.reverse_nil, walkAll] at inside
          simp only [addJoined, Instruction.walk, List.singleton_append, joinTexts_cons,
            walkBack_cons, KeptCall.joinBefore, List.reverse_singleton]
          rw [glue_apart (by simp), apart_glue (by simp)]
          simp only [← inside, List.reverse_reverse]

theorem walkBack_joinOnto (written : List Instruction) (instructions : List Instruction)
    (more : List KeptCall) :
    glue (walkBack (joinOnto written instructions)) (joinTexts more) =
      glue (walkBack written) (joinTexts (walkAll instructions ++ more)) := by
  cases instructions with
  | nil => rfl
  | cons instruction rest =>
      rw [joinOnto, walkBack_joinOnto, walkBack_addJoined, walkAll, List.append_assoc]

end

theorem walkAll_joined (instructions : List Instruction) :
    walkAll (joined instructions) = joinTexts (walkAll instructions) := by
  have joins := walkBack_joinOnto [] instructions []
  rw [List.append_nil] at joins
  rwa [joinTexts, glue_nil, reverse_walkBack] at joins

end

section

variable {written instructions : List Instruction}

theorem allTidy_iff : AllTidy instructions ↔
    (∀ instruction ∈ instructions, instruction.IsTidy) ∧
    instructions.IsChain Instruction.Apart := by
  induction instructions with
  | nil => simp [AllTidy]
  | cons instruction rest ih =>
      rw [AllTidy, ih, List.forall_mem_cons, List.isChain_cons]
      constructor
      · rintro ⟨here, apart, further, chain⟩
        exact ⟨⟨here, further⟩, apart, chain⟩
      · rintro ⟨⟨here, further⟩, apart, chain⟩
        exact ⟨here, apart, further, chain⟩

theorem allTidy_reverse (tidy : AllTidy instructions) : AllTidy instructions.reverse := by
  rw [allTidy_iff] at tidy ⊢
  obtain ⟨each, chain⟩ := tidy
  constructor
  · intro instruction member
    exact each instruction (List.mem_reverse.mp member)
  · rw [List.isChain_reverse]
    apply chain.imp
    intro first second apart both
    exact apart both.symm

theorem allTidy_appendText {text : String} (filled : text.isEmpty = false)
    (tidy : AllTidy written) : AllTidy (Program.appendText text written) := by
  unfold Program.appendText
  split
  · next before earlier =>
      obtain ⟨here, apart, further⟩ := tidy
      refine ⟨?_, apart, further⟩
      intro empty
      exact here (String.append_eq_empty_iff.mp empty).1
  · next apart =>
      refine ⟨?_, ?_, tidy⟩
      · rintro rfl
        cases filled
      · intro next last both
        cases next with
        | literal more => exact apart more written.tail (List.cons_head?_tail last).symm
        | _ => cases both.2

theorem allTidy_cons {instruction : Instruction} (here : instruction.IsTidy)
    (apart : instruction.isLiteral = false) (tidy : AllTidy written) :
    AllTidy (instruction :: written) := by
  refine ⟨here, ?_, tidy⟩
  intro next _ both
  rw [apart] at both
  cases both.1

mutual

theorem allTidy_addJoined (written : List Instruction) (instruction : Instruction)
    (tidy : AllTidy written) : AllTidy (addJoined written instruction) := by
  cases instruction with
  | literal text =>
      simp only [addJoined]
      split
      · exact tidy
      · next filled => exact allTidy_appendText (by simpa using filled) tidy
  | value expr escaping => exact allTidy_cons trivial rfl tidy
  | conditional guard body | inverted guard body | inclusion name body | block name body =>
      exact allTidy_cons (allTidy_reverse (allTidy_joinOnto [] body trivial)) rfl tidy
  | lambda call template =>
      cases template with
      | none => exact allTidy_cons trivial rfl tidy
      | some body =>
          exact allTidy_cons (allTidy_reverse (allTidy_joinOnto [] body trivial)) rfl tidy

theorem allTidy_joinOnto (written : List Instruction) (instructions : List Instruction)
    (tidy : AllTidy written) : AllTidy (joinOnto written instructions) := by
  cases instructions with
  | nil => exact tidy
  | cons instruction rest =>
      exact allTidy_joinOnto _ rest (allTidy_addJoined written instruction tidy)

end

theorem allTidy_joined (instructions : List Instruction) : AllTidy (joined instructions) :=
  allTidy_reverse (allTidy_joinOnto [] instructions trivial)

end

end Stencil
