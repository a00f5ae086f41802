import Stencil.Proofs.Compile.LineStarts

/-!
The tokens that the compile of a body comes to. Main statements: what holds at the start of a body
and is kept by each of its tokens holds at all of them, and what a body fails with or gives comes
from one of its tokens.
-/

namespace Stencil.Compile

section Runs

variable {α : Type} {step : State → α → Outcome} {s last : State} {items : List α}
  {events : List Event}

theorem runAll_cons {item : α} {rest : List α} {first : List Event} {next : State}
    (here : step s item = .ok (first, next))
    (further : runAll step next rest = .ok (events, last)) :
    runAll step s (item :: rest) = .ok (first ++ events, last) := by
  rw [runAll, here, ok_bind]
  dsimp only
  rw [further]
  rfl

theorem exists_of_runAll_error {error : CompileError}
    (failed : runAll step s items = .error error) :
    ∃ front item back before middle, items = front ++ item :: back ∧
      runAll step s front = .ok (before, middle) ∧ step middle item = .error error := by
  induction items generalizing s with
  | nil => cases failed
  | cons item rest ih =>
      rw [runAll] at failed
      rcases bind_eq_error.mp failed with here | ⟨⟨first, next⟩, here, failed⟩
      · exact ⟨[], item, rest, [], s, rfl, rfl, here⟩
      · rcases bind_eq_error.mp failed with failed | ⟨result, -, done⟩
        · obtain ⟨front, failing, back, before, middle, rfl, done, fails⟩ := ih failed
          exact ⟨item :: front, failing, back, _, middle, rfl, runAll_cons here done, fails⟩
        · cases done

theorem exists_of_mem_runAll {event : Event} (done : runAll step s items = .ok (events, last))
    (member : event ∈ events) :
    ∃ front item back before middle more next, items = front ++ item :: back ∧
      runAll step s front = .ok (before, middle) ∧ step middle item = .ok (more, next) ∧
      event ∈ more := by
  induction items generalizing s events with
  | nil =>
      cases done
      cases member
  | cons item rest ih =>
      rw [runAll] at done
      obtain ⟨⟨first, next⟩, here, done⟩ := bind_eq_ok.mp done
      obtain ⟨⟨later, final⟩, further, done⟩ := bind_eq_ok.mp done
      cases done
      rcases List.mem_append.mp member with inFirst | inLater
      · exact ⟨[], item, rest, [], s, first, next, rfl, rfl, here, inFirst⟩
      · obtain ⟨front, found, back, before, middle, more, after, rfl, run, taken, inside⟩ :=
          ih further inLater
        exact ⟨item :: front, found, back, _, middle, more, after, rfl, runAll_cons here run, taken,
          inside⟩

end Runs

variable {setting : Setting} {nested? : Option Nested} {body : Body}
  {earlier later lines : List LineGroup} {events : List Event} {last : State}

def Point.passed (p : Point setting nested? body) : List LineToken := p.earlier.flatten ++ p.front

/-- What holds at the start of a body, and is kept by every token and at the end of every group. -/
structure Invariant (setting : Setting) (nested? : Option Nested) (body : Body)
    (P : List LineToken → State → Prop) : Prop where
  start : P [] (.start body)
  next (p : Point setting nested? body) {events : List Event} {next : State} :
    P p.passed p.state → p.outcome = .ok (events, next) → P (p.passed ++ [p.token]) next
  endGroup {passed : List LineToken} {s : State} : P passed s → P passed (endGroup s)

namespace Invariant

variable {P : List LineToken → State → Prop} (kept : Invariant setting nested? body P)

include kept

theorem groups {state : State} (grouped : Compile.groups body = .ok (earlier ++ later))
    (reached : runAll (readGroup setting nested? body) (.start body) earlier =
      .ok (events, state)) : P earlier.flatten state :=
  groups_induction (P := fun read _ s => P read s) (fun p => kept.next p) kept.start kept.endGroup
    grouped reached

theorem point (p : Point setting nested? body) : P p.passed p.state :=
  Point.holds (P := fun read _ s => P read s) (fun q => kept.next q) p kept.start kept.endGroup

end Invariant

theorem exists_point_of_error {error : CompileError} (grouped : groups body = .ok lines)
    (failed : runAll (readGroup setting nested? body) (.start body) lines = .error error) :
    ∃ p : Point setting nested? body, p.outcome = .error error := by
  obtain ⟨earlier, group, later, earlierEvents, before, rfl, reached, fails⟩ :=
    exists_of_runAll_error failed
  rcases bind_eq_error.mp fails with read | ⟨result, -, done⟩
  · obtain ⟨front, t, back, frontEvents, state, rfl, inFront, here⟩ := exists_of_runAll_error read
    exact ⟨⟨earlier, front, t, back, later, before, state, earlierEvents, frontEvents, grouped,
      reached, inFront⟩, here⟩
  · cases done

theorem exists_point_of_mem {event : Event} (grouped : groups body = .ok lines)
    (done : runAll (readGroup setting nested? body) (.start body) lines = .ok (events, last))
    (member : event ∈ events) :
    ∃ (p : Point setting nested? body) (more : List Event) (next : State),
      p.outcome = .ok (more, next) ∧ event ∈ more := by
  obtain ⟨earlier, group, later, earlierEvents, before, inGroup, after, rfl, reached, taken,
      inside⟩ :=
    exists_of_mem_runAll done member
  obtain ⟨⟨read, behind⟩, run, taken⟩ := bind_eq_ok.mp taken
  cases taken
  obtain ⟨front, t, back, frontEvents, state, more, next, rfl, inFront, here, found⟩ :=
    exists_of_mem_runAll run inside
  exact ⟨⟨earlier, front, t, back, later, before, state, earlierEvents, frontEvents, grouped,
    reached, inFront⟩, more, next, here, found⟩

end Stencil.Compile
