import Stencil.Proofs.Compile.Requests

/-!
The calls of a compile are bracketed. Main statement: the calls of every template that is compiled,
and of every template of a lambda, open and close constructs in turn, and a program that is fed with
them holds all of them.
-/

namespace Stencil

namespace Compile

variable {setting : Setting} {nested? : Option Nested} {body : Body} {s middle next : State}
  {t : LineToken} {events more : List Event}

def LambdasBracketed (events : List Event) : Prop :=
  ∀ call body, .lambda call (.ok body) ∈ events → AllBracketed body

theorem allBracketed_iff : AllBracketed events ↔ IsBracketed events ∧ LambdasBracketed events := by
  constructor
  · intro all
    exact ⟨all.itself, fun call body member => all.lambda member⟩
  · rintro ⟨bracketed, lambdas⟩ inner within
    cases within with
    | itself => exact bracketed
    | lambda member deeper => exact lambdas _ _ member inner deeper

/-- That a part of a compile pays for what it closes: from the exits that are owed before it to
those owed after it. -/
structure Balances (s : State) (events : List Event) (next : State) : Prop where
  owed : owedAfter s.owed events = some next.owed
  lambdas : LambdasBracketed events

def NestedBalances (nested : Nested) : Prop :=
  ∀ body events atLineStart, nested body = .ok (events, atLineStart) → AllBracketed events

theorem Balances.nil (s : State) : Balances s [] s :=
  ⟨rfl, fun _ _ member => absurd member List.not_mem_nil⟩

theorem Balances.append (first : Balances s events middle) (second : Balances middle more next) :
    Balances s (events ++ more) next := by
  constructor
  · exact owedAfter_trans first.owed second.owed
  · intro call body member
    obtain earlier | later := List.mem_append.mp member
    · exact first.lambdas call body earlier
    · exact second.lambdas call body later

theorem Moves.balances (moves : Moves s events next) : Balances s events next := by
  refine ⟨moves.owed, ?_⟩
  intro call body member
  obtain ⟨plain, same, -⟩ := moves.plain _ member
  cases same

theorem Step.balances (nestedBalances : ∀ nested ∈ nested?, NestedBalances nested)
    (step : Step nested? s events next) : Balances s events next := by
  cases step with
  | moves moves => exact moves.balances
  | @inclusion nested inner events atLineStart _ name found compiled openTags =>
      obtain ⟨bracketed, lambdas⟩ :=
        allBracketed_iff.mp (nestedBalances nested found inner events atLineStart compiled)
      constructor
      · have owed : next.owed = s.owed := by rw [State.owed, State.owed, openTags]
        rw [owed]
        exact IsBracketed.enclose (.inclusion name) bracketed s.owed
      · intro call body member
        have within : Event.lambda call (.ok body) ∈ events := by simpa using member
        exact lambdas call body within
  | @lambda nested front outcome _ call found writes compiled openTags =>
      have before : Balances s front next := (Moves.write writes openTags).balances
      refine before.append ⟨rfl, ?_⟩
      intro call inner member
      injection List.mem_singleton.mp member with _ same
      obtain ⟨body, atLineStart, compiled⟩ := compiled inner same.symm
      exact nestedBalances nested found body inner atLineStart compiled

theorem Steps.balances (nestedBalances : ∀ nested ∈ nested?, NestedBalances nested)
    (steps : Steps nested? s events next) : Balances s events next := by
  induction steps with
  | refl s => exact .nil s
  | step first _ ih => exact (first.balances nestedBalances).append ih

theorem compileWith_balances (nestedBalances : ∀ nested ∈ nested?, NestedBalances nested) :
    NestedBalances (compileWith setting nested?) := by
  intro body events atLineStart done
  obtain ⟨last, steps, closed⟩ := compileWith_steps done
  obtain ⟨owed, lambdas⟩ := steps.balances nestedBalances
  rw [State.owed, State.owed, closed] at owed
  exact allBracketed_iff.mpr ⟨owed, lambdas⟩

theorem compileBody_balances (setting : Setting) (room : Nat) :
    NestedBalances (compileBody setting room) := by
  induction room with
  | zero => exact compileWith_balances fun _ none => nomatch none
  | succ room ih =>
      refine compileWith_balances ?_
      rintro nested ⟨⟩
      exact ih

end Compile

/-- The calls of a compiled template are bracketed, and so are those of each lambda in it, and a
program takes in all of them. That holds for each template that is compiled on the way, too, also
for those inside the template of a lambda that fails. -/
theorem compile_wellBracketed {schema : Schema} {library : Library} {options : Options}
    {template : Template} {events : List Event}
    (done : compile schema library options template = .ok events) :
    (∀ inner, IsTemplateIn inner events → WellBracketed inner) ∧
    ∀ room body inner atLineStart,
      Compile.compileBody ⟨schema, library, options⟩ room body = .ok (inner, atLineStart) →
      WellBracketed inner := by
  have balances (room : Nat) := Compile.compileBody_balances ⟨schema, library, options⟩ room
  obtain ⟨⟨whole, atLineStart⟩, compiled, same⟩ := map_eq_ok.mp done
  cases same
  constructor
  · intro inner within
    have all := balances options.maxIncludeDepth _ _ _ compiled
    exact AllBracketed.wellBracketed fun other deeper => all other (deeper.trans within)
  · intro room body inner atLineStart compiled
    exact (balances room body inner atLineStart compiled).wellBracketed

/-- A section around an inclusion with a block. -/
theorem compile_wellBracketed_section :
    ∃ events, compile .dynamic (.ofCatalog [("p", "{{$b}}x{{/b}}")]) .default
        ⟨"main", "{{#a}}{{>p}}{{/a}}"⟩ = .ok events ∧ WellBracketed events := by
  have succeeds : (compile .dynamic (.ofCatalog [("p", "{{$b}}x{{/b}}")]) .default
      ⟨"main", "{{#a}}{{>p}}{{/a}}"⟩).isOk = true := by decide +kernel
  obtain ⟨events, done⟩ := eq_ok_of_isOk succeeds
  exact ⟨events, done, (compile_wellBracketed done).1 events .itself⟩

end Stencil
