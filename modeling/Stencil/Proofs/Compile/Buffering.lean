import Stencil.Proofs.Compile.Streaming

/-!
Compiling into a sink. Main statement: a sink that takes in every lambda gets nothing of a compile
that fails, and of one that succeeds the calls that are made when it is composed for straight away,
except that it gets nothing of the template of a lambda that fails.
-/

namespace Stencil

variable {σ : Type}

def compileInto (sink : Sink σ) (schema : Schema) (library : Library) (options : Options)
    (template : Template) (st : σ) : σ × Option CompileError :=
  match compile schema library options template with
  | .error error => (st, some error)
  | .ok events => sink.feed st events

namespace Sink

variable {sink : Sink σ}

/-- That a sink takes in every lambda, whatever becomes of the template. -/
def IsWilling (sink : Sink σ) : Prop :=
  ∀ st call template, (sink.lambda st call template).2 = none

def undoing (change : σ → σ × Option CompileError) (st : σ) : σ × Option CompileError :=
  match change st with
  | (after, none) => (after, none)
  | (_, some error) => (st, some error)

/-- The sink that takes no call of a lambda's template if the template fails. -/
def atomic (sink : Sink σ) : Sink σ where
  call := sink.call
  lambda st call template := sink.lambda st call (undoing template)

/-- A sink that asks for no lambda's template. -/
def deaf : Sink Unit := ⟨fun _ _ => (), fun _ _ _ => ((), none)⟩

def counting : Sink Nat :=
  ⟨fun count _ => count + 1, fun count _ template => ((template (template count).1).1 + 1, none)⟩

def unwatched (sink : Sink σ) : Observer σ := { sink with enter := fun st _ => st }

theorem feed_append (sink : Sink σ) (st : σ) (first second : List Event) :
    sink.feed st (first ++ second) =
      match sink.feed st first with
      | (middle, none) => sink.feed middle second
      | failed => failed := by
  induction first generalizing st with
  | nil => rfl
  | cons event rest ih =>
      rw [List.cons_append, feed, feed]
      rcases sink.feedEvent st event with ⟨next, _ | error⟩
      · exact ih next
      · rfl

theorem undoing_eq {change : σ → σ × Option CompileError} {st after : σ}
    {failure : Option CompileError} (fails : (change st).2 = failure)
    (done : failure = none → (change st).1 = after) (undone : failure ≠ none → st = after) :
    undoing change st = (after, failure) := by
  unfold undoing
  revert fails done
  rcases change st with ⟨reached, _ | error⟩
  · rintro ⟨⟩ done
    rw [← done rfl]
  · rintro ⟨⟩ -
    rw [← undone (Option.some_ne_none error)]

theorem lambda_atomic {template : σ → σ × Option CompileError}
    {outcome : Except CompileError (List Event)}
    (fails : ∀ inner, (template inner).2 = failure? outcome)
    (feeds : ∀ inner events, outcome = .ok events →
      sink.feed inner events = ((template inner).1, none)) (st : σ) (call : LambdaCall) :
    sink.atomic.lambda st call template = sink.feedEvent st (.lambda call outcome) := by
  cases outcome with
  | error problem =>
      have same : undoing template = fun inner => (inner, some problem) := by
        funext inner
        exact undoing_eq (fails inner) (fun absent => nomatch absent) fun _ => rfl
      exact congrArg (sink.lambda st call) same
  | ok events =>
      have same : undoing template = fun inner => sink.feed inner events := by
        funext inner
        rw [feeds inner events rfl]
        exact undoing_eq (fails inner) (fun _ => rfl) fun failed => absurd rfl failed
      exact congrArg (sink.lambda st call) same

/-- A willing sink is fed what it is told, template by template. -/
theorem IsWilling.faithful (willing : sink.IsWilling) (admits : TemplateStack → Prop) :
    Compile.Faithful sink.atomic.unwatched admits fun st outcome after =>
      ∀ events, outcome = .ok events → sink.feed st events = (after, none) where
  nothing := by
    rintro st events ⟨⟩
    rfl
  failed := by
    rintro st error events ⟨⟩
  append := by
    intro st middle after events more here further whole same
    obtain ⟨later, rfl, rfl⟩ := map_eq_ok.mp same
    rw [feed_append, here events rfl]
    exact further later rfl
  enter := by
    rintro st stack - events ⟨⟩
    rfl
  call := by
    rintro st call events ⟨⟩
    rfl
  lambda := by
    intro template outcome st call told
    have fed : sink.atomic.lambda st call template = sink.feedEvent st (.lambda call outcome) :=
      lambda_atomic (fun inner => (told inner).1) (fun inner => (told inner).2) st call
    have taken : (sink.atomic.lambda st call template).2 = none := willing st call _
    refine ⟨taken, ?_⟩
    rintro events ⟨⟩
    change _ = ((sink.atomic.lambda st call template).1, none)
    rw [feed, ← fed]
    revert taken
    rcases sink.atomic.lambda st call template with ⟨after, failure⟩
    rintro ⟨⟩
    rfl

theorem deaf_faithful (admits : TemplateStack → Prop) :
    Compile.Faithful deaf.unwatched admits fun _ _ _ => True where
  nothing _ := trivial
  failed _ _ := trivial
  append _ _ := trivial
  enter _ _ _ := trivial
  call _ _ := trivial
  lambda _ _ _ := ⟨rfl, trivial⟩

end Sink

/-- For a sink that takes in every lambda, a compile that fails makes no call, and one that succeeds
makes those of composing for the sink straight away, where the template of a lambda makes its calls,
or none and fails, each time that the sink asks for it. Whether a compile fails does not depend on
the templates of lambdas. -/
theorem compileInto_eq {sink : Sink σ} (willing : sink.IsWilling) (schema : Schema)
    (library : Library) (options : Options) (deeper : Compile.Body → Delivery σ Bool)
    (deeperStill : Compile.Body → Delivery Unit Bool) (template : Template) (st : σ) :
    compileInto sink schema library options template st =
        (match (composeInto sink.atomic.unwatched schema library options deeper template).on st with
        | (.error error, _) => (st, some error)
        | (.ok _, after) => (after, none)) ∧
      (compileInto sink schema library options template st).2 =
        failure? ((composeInto Sink.deaf.unwatched schema library options deeperStill template).on
          ()).1 := by
  obtain ⟨same, fed⟩ := composeInto_compile (willing.faithful _) schema library deeper template st
  obtain ⟨unheard, -⟩ := composeInto_compile (Sink.deaf_faithful _) schema library deeperStill
    template ()
  rw [unheard]
  revert same fed
  unfold compileInto
  rcases (composeInto sink.atomic.unwatched schema library options deeper template).on st with
    ⟨result, after⟩
  cases compile schema library options template with
  | error problem =>
      cases result <;> rintro ⟨⟩ -
      exact ⟨rfl, rfl⟩
  | ok events =>
      cases result <;> rintro ⟨⟩ fed
      have taken := fed events rfl
      exact ⟨taken, congrArg Prod.snd taken⟩

/-- A text and the call of a lambda, whose template has a text and then fails. -/
theorem compileInto_eq_counting :
    let schema := (Schema.ofRoot (.struct "page")).withStruct "page" ⟨[], [("f", .raw)]⟩
    let template : Template := ⟨"main", "a{{#f}}b{{>gone}}{{/f}}"⟩
    Sink.counting.IsWilling ∧
      compileInto Sink.counting schema (.ofCatalog []) .default template 0 = (2, none) ∧
      ((composeInto Sink.counting.atomic.unwatched schema (.ofCatalog []) .default
        (fun _ => pure true) template).on 0).2 = 2 := by
  intro schema template
  have willing : Sink.counting.IsWilling := fun _ _ _ => rfl
  have counted :
      compileInto Sink.counting schema (.ofCatalog []) .default template 0 = (2, none) := by
    decide +kernel
  refine ⟨willing, counted, ?_⟩
  have composed := (compileInto_eq willing schema (.ofCatalog []) .default (fun _ => pure true)
    (fun _ => pure true) template 0).1
  rw [counted] at composed
  revert composed
  rcases Delivery.on _ 0 with ⟨_ | _, after⟩
  · rintro ⟨⟩
  · rintro ⟨⟩
    rfl

end Stencil
