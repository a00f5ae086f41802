import Stencil.Proofs.Program.Spelling

/-!
Calls that open and close constructs. Main statement: calls in which every exit closes what was
opened last are so between any others, and between the two calls of a construct.
-/

namespace Stencil

namespace Call

def exit? : Call → Option Call
  | enterSection _ => some exitSection
  | enterInverted _ => some exitInverted
  | enterPartial _ => some exitPartial
  | enterBlock _ => some exitBlock
  | _ => none

def isExit : Call → Bool
  | exitSection | exitInverted | exitPartial | exitBlock => true
  | _ => false

/-- The exits that are owed after a call, innermost first, given those owed before it. An exit has
to be the one that is owed for the latest construct. -/
def settle (owed : List Call) (call : Call) : Option (List Call) :=
  match call.exit? with
  | some exit => some (exit :: owed)
  | none =>
      if call.isExit then if owed.head? = some call then some owed.tail else none
      else some owed

end Call

def Event.settle (owed : List Call) : Event → Option (List Call)
  | .call plain => plain.settle owed
  | .lambda _ _ => some owed

def owedAfter (owed : List Call) (events : List Event) : Option (List Call) :=
  events.foldlM Event.settle owed

/-- That each exit closes the latest construct that is open, which is of its own kind, and that
nothing is left open. -/
def IsBracketed (events : List Event) : Prop := owedAfter [] events = some []

section

variable {owed after more : List Call} {first second : List Event}

@[simp] theorem owedAfter_nil (owed : List Call) : owedAfter owed [] = some owed := rfl

theorem owedAfter_cons (owed : List Call) (event : Event) (rest : List Event) :
    owedAfter owed (event :: rest) = (event.settle owed).bind (owedAfter · rest) := rfl

theorem owedAfter_append (owed : List Call) (first second : List Event) :
    owedAfter owed (first ++ second) = (owedAfter owed first).bind (owedAfter · second) := by
  unfold owedAfter
  rw [List.foldlM_append]
  rfl

theorem owedAfter_trans (here : owedAfter owed first = some after)
    (further : owedAfter after second = some more) :
    owedAfter owed (first ++ second) = some more := by
  rw [owedAfter_append, here, Option.bind_some, further]

theorem Call.settle_eq_some {call : Call} :
    call.settle owed = some after ↔
      (∃ exit, call.exit? = some exit ∧ after = exit :: owed) ∨
      (call.exit? = none ∧ call.isExit = true ∧ owed = call :: after) ∨
      (call.exit? = none ∧ call.isExit = false ∧ after = owed) := by
  unfold settle
  cases opens : call.exit? with
  | some exit =>
      constructor
      · rintro ⟨⟩
        exact .inl ⟨exit, rfl, rfl⟩
      · rintro (⟨_, ⟨⟩, rfl⟩ | ⟨⟨⟩, _⟩ | ⟨⟨⟩, _⟩)
        rfl
  | none =>
      cases exits : call.isExit with
      | false => simp [eq_comm (a := after)]
      | true =>
          cases owed with
          | nil => simp
          | cons due outer =>
              by_cases same : due = call
              · simp [same]
              · simp [same]

theorem Event.settle_append {event : Event} (settled : event.settle owed = some after)
    (outer : List Call) : event.settle (owed ++ outer) = some (after ++ outer) := by
  cases event with
  | lambda call template =>
      cases settled
      rfl
  | call plain =>
      refine Call.settle_eq_some.mpr ?_
      obtain ⟨exit, opens, rfl⟩ | ⟨opens, exits, rfl⟩ | ⟨opens, exits, rfl⟩ :=
        Call.settle_eq_some.mp settled
      · exact .inl ⟨exit, opens, rfl⟩
      · exact .inr (.inl ⟨opens, exits, rfl⟩)
      · exact .inr (.inr ⟨opens, exits, rfl⟩)

theorem owedAfter_outside (settled : owedAfter owed first = some after) (outer : List Call) :
    owedAfter (owed ++ outer) first = some (after ++ outer) := by
  induction first generalizing owed with
  | nil =>
      cases settled
      rfl
  | cons event rest ih =>
      rw [owedAfter_cons] at settled ⊢
      obtain ⟨between, here, further⟩ := Option.bind_eq_some_iff.mp settled
      rw [Event.settle_append here outer, Option.bind_some]
      exact ih further

theorem IsBracketed.anywhere (bracketed : IsBracketed first) (owed : List Call) :
    owedAfter owed first = some owed := owedAfter_outside bracketed owed

theorem settle_enter (construct : Construct) (owed : List Call) :
    construct.enter.settle owed = some (construct.exit :: owed) := by
  cases construct <;> rfl

theorem settle_exit (construct : Construct) (owed : List Call) :
    construct.exit.settle (construct.exit :: owed) = some owed := by
  cases construct <;> simp [Call.settle, Call.exit?, Call.isExit, Construct.exit]

theorem IsBracketed.enclose (construct : Construct) (bracketed : IsBracketed first)
    (owed : List Call) :
    owedAfter owed (.call construct.enter :: (first ++ [.call construct.exit])) = some owed := by
  rw [owedAfter_cons, Event.settle, settle_enter, Option.bind_some]
  refine owedAfter_trans (bracketed.anywhere _) ?_
  rw [owedAfter_cons, Event.settle, settle_exit, Option.bind_some, owedAfter_nil]

end

/-- The events of a template and of the templates of lambdas in it, at any depth. -/
inductive IsTemplateIn : List Event → List Event → Prop where
  | itself {events : List Event} : IsTemplateIn events events
  | lambda {call : LambdaCall} {body inner events : List Event} :
      .lambda call (.ok body) ∈ events → IsTemplateIn inner body → IsTemplateIn inner events

def AllBracketed (events : List Event) : Prop :=
  ∀ inner, IsTemplateIn inner events → IsBracketed inner

section

variable {events : List Event}

theorem IsTemplateIn.trans {inner body : List Event} (deeper : IsTemplateIn inner body)
    (within : IsTemplateIn body events) : IsTemplateIn inner events := by
  induction within with
  | itself => exact deeper
  | lambda member _ ih => exact .lambda member (ih deeper)

theorem AllBracketed.itself (all : AllBracketed events) : IsBracketed events := all _ .itself

theorem AllBracketed.lambda {call : LambdaCall} {body : List Event} (all : AllBracketed events)
    (member : .lambda call (.ok body) ∈ events) : AllBracketed body :=
  fun inner within => all inner (.lambda member within)

end

end Stencil
