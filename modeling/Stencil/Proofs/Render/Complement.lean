import Stencil.Proofs.Program.Shaped
import Stencil.Proofs.Render.Bindings
import Stencil.Proofs.Render.Walk
import Stencil.Proofs.Scope.Sections
import Stencil.Render.Template

/-!
Sections and their inverses. Main statement: in the same place the inverse of a section is rendered
exactly when the section is not, but for sections over a sequence whose elements may be false or
absent, which pass over such elements while the inverse asks for an empty sequence.
-/

namespace Stencil

/-- Shapes of elements that a section over a sequence may pass over. -/
def Shape.isSkippable : Shape → Bool
  | bool | optional _ => true
  | _ => false

def Shape.element? (shape : Shape) : Option Shape :=
  match shape.core with
  | sequence element => some element
  | _ => none

/-- Whether a section over a sequence is rendered for an element of some shape. -/
def Value.isEntered (value : Value) : Shape → Bool
  | .bool => value.isTruthy
  | .optional inner => value.isPresent && value.isEntered inner
  | _ => true

/-- The variables of each time that an inverted section is rendered: those around it, if its guard
never passes. -/
def Bindings.failures (bindings : Bindings) (guard : Guard) :
    Except RenderError (List Bindings) := do
  return if (← bindings.passes guard).isEmpty then [bindings] else []

def Renderer.Repeats (renderer : Renderer) (body : List Instruction) (times : List Bindings)
    (text : String) : Prop :=
  ∃ texts, times.mapM (fun inner => renderer.runAll inner body) = .ok texts ∧
    text = String.join texts

/-- How often a section over a value is rendered, next to how often its inverse is. -/
structure Opposed (bindings : Bindings) (found : ShapedExpr) (times others : List Bindings) :
    Prop where
  once : others = [] ∨ others = [bindings]
  exact : (∀ element, found.shape.element? = some element → element.isSkippable = false) →
    (others = [bindings] ↔ times = [])
  elements : ∀ element, found.shape.element? = some element →
    ∃ items, bindings.sequence found.expr = .ok items ∧
      times.length = items.countP (fun item => (Value.json item).isEntered element) ∧
      (others = [bindings] ↔ items = [])

theorem length_flatten_of_countP {α β : Type} {test : β → Bool} {lists : List (List α)}
    {items : List β}
    (each : List.Forall₂ (fun list item => list.length = if test item then 1 else 0) lists items) :
    lists.flatten.length = items.countP test := by
  induction each with
  | nil => rfl
  | cons here _ ih =>
      rw [List.flatten_cons, List.length_append, here, ih, List.countP_cons, Nat.add_comm]

namespace Value

theorem isEntered_of_not_skippable {shape : Shape} (always : shape.isSkippable = false)
    (value : Value) : value.isEntered shape = true := by
  cases shape <;> first | rfl | cases always

theorem isPresent_of_isTruthy {value : Value} (truthy : value.isTruthy = true) :
    value.isPresent = true := by
  cases value with
  | json content => cases content <;> first | rfl | cases truthy
  | node n =>
      obtain ⟨content, around⟩ := n
      cases content <;> first | rfl | cases truthy
  | step index length => rfl
  | missing => cases truthy

theorem steps_toNode_absent {value : Value} (absent : value.isPresent = false) :
    ∃ node, value.toNode = .ok node ∧ node.steps = [] := by
  cases value with
  | json content =>
      cases content with
      | null => exact ⟨.ofJson .null, rfl, rfl⟩
      | _ => cases absent
  | node n =>
      obtain ⟨content, around⟩ := n
      cases content with
      | empty => exact ⟨⟨.empty, around⟩, rfl, rfl⟩
      | _ => cases absent
  | step index length => cases absent
  | missing => exact ⟨.empty, rfl, rfl⟩

end Value

namespace Bindings

variable {bindings : Bindings} {expr : Expr} {value : Value} {shape : Shape}
  {names after : FreshNames} {guard : Guard} {guards : List Guard} {passed : List Bindings}

theorem sequence_absent (evaluated : bindings.eval expr = .ok value)
    (absent : value.isPresent = false) : bindings.sequence expr = .ok [] := by
  unfold sequence
  rw [evaluated, ok_bind]
  cases value with
  | json content => cases content <;> first | rfl | cases absent
  | node n =>
      obtain ⟨content, around⟩ := n
      cases content <;> first | rfl | cases absent
  | step index length => cases absent
  | missing => rfl

theorem eval_of_passes (opened : Scope.guardOver expr names shape = (guard, after))
    (passes : bindings.passes guard = .ok passed) : ∃ value, bindings.eval expr = .ok value := by
  induction shape with
  | optional inner ih => exact ih opened
  | sequence element =>
      obtain ⟨_, _, -, rfl⟩ := Scope.guardOver_sequence opened
      obtain ⟨items, sequence, -⟩ := bind_eq_ok.mp passes
      obtain ⟨value, evaluated, -⟩ := bind_eq_ok.mp sequence
      exact ⟨value, evaluated⟩
  | dynamic =>
      obtain ⟨_, _, -, rfl⟩ := Scope.guardOver_dynamic opened
      obtain ⟨nodes, steps, -⟩ := bind_eq_ok.mp passes
      obtain ⟨value, evaluated, -⟩ := bind_eq_ok.mp steps
      exact ⟨value, evaluated⟩
  | bool | text | number | mapping _ | struct _ | enum _ =>
      cases opened
      obtain ⟨value, evaluated, -⟩ := bind_eq_ok.mp passes
      exact ⟨value, evaluated⟩

theorem passes_absent (opened : Scope.guardOver expr names shape = (guard, after))
    (evaluated : bindings.eval expr = .ok value) (absent : value.isPresent = false) :
    bindings.passes guard = .ok [] := by
  induction shape with
  | optional inner ih => exact ih opened
  | sequence element =>
      obtain ⟨_, _, -, rfl⟩ := Scope.guardOver_sequence opened
      simp only [passes, sequence_absent evaluated absent, ok_bind, pure_eq_ok]
      rfl
  | dynamic =>
      obtain ⟨_, _, -, rfl⟩ := Scope.guardOver_dynamic opened
      obtain ⟨node, made, none⟩ := Value.steps_toNode_absent absent
      simp only [passes, nodeSteps, evaluated, made, none, ok_bind, pure_eq_ok]
      rfl
  | bool =>
      cases opened
      have falsey : value.isTruthy = false := by
        apply Bool.eq_false_iff.mpr
        intro truthy
        rw [Value.isPresent_of_isTruthy truthy] at absent
        cases absent
      simp [passes, evaluated, falsey]
  | text | number | mapping _ | struct _ | enum _ =>
      cases opened
      simp [passes, evaluated, absent]

theorem passesAll_element (evaluated : bindings.eval expr = .ok value) (shape : Shape) :
    bindings.passesAll (Scope.elementLayer expr shape).1 =
      .ok (if value.isEntered shape then [bindings] else []) := by
  induction shape with
  | bool =>
      have alone : bindings.passes (.truthy expr) =
          .ok (if value.isTruthy then [bindings] else []) := by
        simp only [passes, evaluated, ok_bind, pure_eq_ok]
      exact passesAll_singleton alone
  | optional inner ih =>
      have guarded : bindings.passesAll (Scope.elementLayer expr (.optional inner)).1 =
          if value.isPresent then bindings.passesAll (Scope.elementLayer expr inner).1
          else .ok [] :=
        passesAll_addPresent evaluated _
      rw [guarded, ih]
      cases present : value.isPresent <;> simp [Value.isEntered, present]
  | text | number | dynamic | sequence _ | mapping _ | struct _ | enum _ => rfl

theorem length_passesAll_each {element index : String} {items : List Json}
    {times : List Bindings} (distinct : element ≠ index)
    (sequence : bindings.sequence expr = .ok items)
    (passes : bindings.passesAll (.each expr element index ::
      (Scope.elementLayer (.var element) shape).1) = .ok times) :
    times.length = items.countP (fun item => (Value.json item).isEntered shape) := by
  have loops : bindings.passes (.each expr element index) =
      .ok (bindings.loop element index (items.map .json)) := by
    simp only [Bindings.passes, sequence, ok_bind, pure_eq_ok]
  have each : List.Forall₂
      (fun inner item => ∃ list,
        inner.passesAll (Scope.elementLayer (.var element) shape).1 = .ok list ∧
          list.length = if (Value.json item).isEntered shape then 1 else 0)
      (bindings.loop element index (items.map .json)) items := by
    apply forall₂_loop (by simp)
    intro position here there
    rw [List.getElem_map]
    refine ⟨_, passesAll_element (eval_element distinct _ _ _) shape, ?_⟩
    split <;> rfl
  obtain ⟨lists, entered, lengths⟩ := exists_mapM_forall₂ each
  simp only [passesAll, loops, entered, ok_bind, pure_eq_ok, Except.ok.injEq] at passes
  subst passes
  exact length_flatten_of_countP lengths

end Bindings

theorem FreshNames.LoopNames.distinct {names after : FreshNames} {element index : String}
    (loop : names.LoopNames element index after) : element ≠ index := by
  -- A look-up in the two names of a loop alone finds the element, so the index does not hide it.
  have none : names.Covers ([] : List (String × Bool)) := by
    intro entry member
    cases member
  obtain ⟨-, -, bound⟩ := none.loop loop true false
  rintro rfl
  simp at bound

namespace Opposed

variable {bindings : Bindings} {schema : Schema} {scope inside : Scope} {expr : Expr}
  {shape : Shape} {names after later last : FreshNames} {guards : List Guard} {guard : Guard}
  {times passed : List Bindings}

theorem same (plain : shape.element? = none)
    (opened : Scope.sectionOver schema scope expr names shape = .ok (guards, inside, after))
    (inverted : Scope.guardOver expr later shape = (guard, last))
    (passesAll : bindings.passesAll guards = .ok times)
    (passes : bindings.passes guard = .ok passed) : times = [] ↔ passed = [] := by
  induction shape generalizing guards with
  | optional inner ih =>
      obtain ⟨within, deeper, rfl⟩ := Scope.sectionOver_optional opened
      obtain ⟨value, evaluated⟩ := Bindings.eval_of_passes inverted passes
      rw [Bindings.passesAll_addPresent evaluated] at passesAll
      cases present : value.isPresent with
      | true =>
          rw [present, if_pos rfl] at passesAll
          exact ih plain deeper inverted passesAll
      | false =>
          rw [present] at passesAll
          cases passesAll
          have absent := Bindings.passes_absent inverted evaluated present
          rw [passes, Except.ok.injEq] at absent
          simp [absent]
  | sequence element => cases plain
  | dynamic =>
      obtain ⟨element, index, -, rfl, -⟩ := Scope.sectionOver_dynamic opened
      obtain ⟨other, position, -, rfl⟩ := Scope.guardOver_dynamic inverted
      obtain ⟨nodes, steps, same⟩ := bind_eq_ok.mp passes
      have once : bindings.passes (.eachNode expr element index) =
          .ok (bindings.loop element index (nodes.map .node)) := by
        simp only [Bindings.passes, steps, ok_bind, pure_eq_ok]
      rw [Bindings.passesAll_singleton once] at passesAll
      cases passesAll
      cases same
      rw [← List.isEmpty_iff, ← List.isEmpty_iff, Bindings.isEmpty_loop, Bindings.isEmpty_loop]
  | bool | text | number | mapping _ | enum _ =>
      cases opened
      cases inverted
      rw [Bindings.passesAll_singleton passes] at passesAll
      cases passesAll
      rfl
  | struct name =>
      obtain ⟨rfl, -, -⟩ := Scope.sectionOver_single rfl opened
      cases inverted
      rw [Bindings.passesAll_singleton passes] at passesAll
      cases passesAll
      rfl

theorem sequence {element : Shape} (sequence : shape.element? = some element)
    (opened : Scope.sectionOver schema scope expr names shape = .ok (guards, inside, after))
    (inverted : Scope.guardOver expr later shape = (guard, last))
    (passesAll : bindings.passesAll guards = .ok times)
    (passes : bindings.passes guard = .ok passed) :
    ∃ items, bindings.sequence expr = .ok items ∧
      times.length = items.countP (fun item => (Value.json item).isEntered element) ∧
      (passed = [] ↔ items = []) := by
  induction shape generalizing guards with
  | optional inner ih =>
      obtain ⟨within, deeper, rfl⟩ := Scope.sectionOver_optional opened
      obtain ⟨value, evaluated⟩ := Bindings.eval_of_passes inverted passes
      rw [Bindings.passesAll_addPresent evaluated] at passesAll
      cases present : value.isPresent with
      | true =>
          rw [present, if_pos rfl] at passesAll
          exact ih sequence deeper inverted passesAll
      | false =>
          rw [present] at passesAll
          cases passesAll
          have absent := Bindings.passes_absent inverted evaluated present
          rw [passes, Except.ok.injEq] at absent
          exact ⟨[], Bindings.sequence_absent evaluated present, rfl, by simp [absent]⟩
  | sequence inner =>
      cases sequence
      obtain ⟨variableName, index, loop, rfl, -⟩ := Scope.sectionOver_sequence opened
      obtain ⟨other, position, -, rfl⟩ := Scope.guardOver_sequence inverted
      obtain ⟨items, elements, same⟩ := bind_eq_ok.mp passes
      cases same
      refine ⟨items, elements, Bindings.length_passesAll_each loop.distinct elements passesAll, ?_⟩
      rw [← List.isEmpty_iff, Bindings.isEmpty_loop, List.isEmpty_map, List.isEmpty_iff]
  | bool | text | number | dynamic | mapping _ | struct _ | enum _ => cases sequence

theorem of_guards
    (opened : Scope.sectionOver schema scope expr names shape = .ok (guards, inside, after))
    (inverted : Scope.guardOver expr later shape = (guard, last))
    (passesAll : bindings.passesAll guards = .ok times)
    (passes : bindings.passes guard = .ok passed) :
    Opposed bindings ⟨expr, shape⟩ times (if passed.isEmpty then [bindings] else []) := by
  have inverse : (if passed.isEmpty then [bindings] else []) = [bindings] ↔ passed = [] := by
    cases passed <;> simp
  refine ⟨by cases passed <;> simp, ?_, ?_⟩
  · intro always
    rw [inverse]
    cases isSequence : shape.element? with
    | none => exact (same isSequence opened inverted passesAll passes).symm
    | some element =>
        obtain ⟨items, -, count, empty⟩ := sequence isSequence opened inverted passesAll passes
        have whole : items.countP (fun item => (Value.json item).isEntered element) =
            items.length := by
          apply List.countP_eq_length.mpr
          intro item member
          exact Value.isEntered_of_not_skippable (always element isSequence) (.json item)
        rw [empty, ← List.length_eq_zero_iff, ← List.length_eq_zero_iff, count, whole]
  · intro element isSequence
    obtain ⟨items, elements, count, empty⟩ :=
      sequence isSequence opened inverted passesAll passes
    exact ⟨items, elements, count, inverse.trans empty⟩

end Opposed

namespace Renderer

variable {renderer : Renderer} {bindings : Bindings} {body : List Instruction} {text : String}

theorem Repeats.once (written : renderer.runAll bindings body = .ok text) :
    renderer.Repeats body [bindings] text :=
  ⟨[text], mapM_eq_ok.mpr (.cons written .nil), by simp⟩

theorem Repeats.never (renderer : Renderer) (body : List Instruction) :
    renderer.Repeats body [] "" := ⟨[], rfl, rfl⟩

theorem Repeats.flatten {lists : List (List Bindings)} {texts : List String}
    (each : List.Forall₂ (renderer.Repeats body) lists texts) :
    renderer.Repeats body lists.flatten (String.join texts) := by
  induction each with
  | nil => exact Repeats.never renderer body
  | cons here _ ih =>
      obtain ⟨first, wroteFirst, rfl⟩ := here
      obtain ⟨rest, wroteRest, same⟩ := ih
      refine ⟨first ++ rest, ?_, ?_⟩
      · rw [List.flatten_cons, List.mapM_append, wroteFirst, ok_bind, wroteRest, ok_bind,
          pure_eq_ok]
      · rw [String.join_cons, String.join_append, same]

theorem repeats_of_runAll_nest {guards : List Guard}
    (written : renderer.runAll bindings (nest guards body) = .ok text) :
    ∃ times, bindings.passesAll guards = .ok times ∧ renderer.Repeats body times text := by
  induction guards generalizing bindings text with
  | nil => exact ⟨[bindings], rfl, .once written⟩
  | cons guard guards ih =>
      rw [nest, runAll_singleton, run] at written
      obtain ⟨inners, passed, written⟩ := bind_eq_ok.mp written
      obtain ⟨texts, each, same⟩ := bind_eq_ok.mp written
      simp only [pure_eq_ok, Except.ok.injEq] at same
      subst same
      have further := (mapM_eq_ok.mp each).imp fun _ _ => ih
      obtain ⟨lists, entered, repeated⟩ := exists_mapM_forall₂ further
      refine ⟨lists.flatten, ?_, .flatten repeated⟩
      rw [Bindings.passesAll, passed, ok_bind, entered, ok_bind, pure_eq_ok]

theorem repeats_of_run_inverted {guard : Guard}
    (written : renderer.run bindings (.inverted guard body) = .ok text) :
    ∃ passed, bindings.passes guard = .ok passed ∧
      renderer.Repeats body (if passed.isEmpty then [bindings] else []) text := by
  rw [run] at written
  obtain ⟨passed, passes, written⟩ := bind_eq_ok.mp written
  refine ⟨passed, passes, ?_⟩
  cases empty : passed.isEmpty with
  | true =>
      rw [empty] at written
      exact .once written
  | false =>
      rw [empty] at written
      cases written
      exact .never renderer body

end Renderer

namespace Scope

/-- In the same place, the body of an inverse is rendered exactly when that of the section is
not, unless the name refers to a sequence whose elements may be false or absent. There the
section is rendered once for each element that is true or present, and the inverse when there are
no elements. -/
theorem inverted_complements_section {schema : Schema} {scope inside around : Scope}
    {name : String} {names after later last : FreshNames} {guards : List Guard} {guard : Guard}
    {renderer : Renderer} {bindings : Bindings} {body other : List Instruction}
    {text otherText : String}
    (opened : scope.meaning schema name .openSection names =
      .ok (.openSection guards inside, after))
    (inverted : scope.meaning schema name .openInverted later =
      .ok (.openInverted guard around, last))
    (written : renderer.runAll bindings (nest guards body) = .ok text)
    (otherwise : renderer.run bindings (.inverted guard other) = .ok otherText) :
    ∃ found times others, Refers schema scope name .openSection found ∧
      bindings.passesAll guards = .ok times ∧ bindings.failures guard = .ok others ∧
      renderer.Repeats body times text ∧ renderer.Repeats other others otherText ∧
      Opposed bindings found times others := by
  rcases meaning_openSection opened with ⟨found, _, _, refers, entered, same⟩ | ⟨_, _, same, _⟩
  · cases same
    obtain ⟨again, _, refersAgain, overAgain, same⟩ := meaning_openInverted inverted
    cases same
    have unique : again = found := refers_unique refersAgain refers
    subst unique
    obtain ⟨times, passesAll, repeats⟩ := Renderer.repeats_of_runAll_nest written
    obtain ⟨passed, passes, repeatsOther⟩ := Renderer.repeats_of_run_inverted otherwise
    refine ⟨again, times, _, refers, passesAll, ?_, repeats, repeatsOther,
      .of_guards entered overAgain passesAll passes⟩
    simp only [Bindings.failures, passes, ok_bind, pure_eq_ok]
  · cases same

/-- A list of optional texts, of which one is absent. -/
theorem inverted_complements_section_texts : ∃ guards inside after guard around last,
    (root (.optional (.sequence (.optional .text)))).meaning
        (.ofRoot (.optional (.sequence (.optional .text)))) "." .openSection .root =
      .ok (.openSection guards inside, after) ∧
    (root (.optional (.sequence (.optional .text)))).meaning
        (.ofRoot (.optional (.sequence (.optional .text)))) "." .openInverted after =
      .ok (.openInverted guard around, last) ∧
    ∃ found times others,
      Refers (.ofRoot (.optional (.sequence (.optional .text))))
          (root (.optional (.sequence (.optional .text)))) "." .openSection found ∧
        (Bindings.root "texts" (.array [.null, .string "a"]) .empty).passesAll guards =
          .ok times ∧
        (Bindings.root "texts" (.array [.null, .string "a"]) .empty).failures guard =
          .ok others ∧
        Renderer.plain.Repeats [.value (.var "element") .escaped] times "a" ∧
        Renderer.plain.Repeats [.literal "none"] others "" ∧
        Opposed (.root "texts" (.array [.null, .string "a"]) .empty) found times others :=
  ⟨_, _, _, _, _, _, rfl, rfl, inverted_complements_section rfl rfl rfl rfl⟩

/-- A list whose only element is false is passed over, and yet it is not empty. -/
theorem neither_rendered_of_false_element :
    (∃ guards inside after guard around last,
      (root (.sequence .bool)).meaning (.ofRoot (.sequence .bool)) "." .openSection .root =
        .ok (.openSection guards inside, after) ∧
      (root (.sequence .bool)).meaning (.ofRoot (.sequence .bool)) "." .openInverted after =
        .ok (.openInverted guard around, last) ∧
      (Bindings.root "flags" (.array [.bool false]) .empty).passesAll guards = .ok [] ∧
      (Bindings.root "flags" (.array [.bool false]) .empty).failures guard = .ok []) ∧
    (Renderer.plain.renderTemplate (.ofRoot (.sequence .bool)) (.ofCatalog []) .default
      ⟨"flags", "{{#.}}on{{/.}}{{^.}}none{{/.}}"⟩ (.array [.bool false]) .empty).toOption =
      some "" := by
  refine ⟨⟨_, _, _, _, _, _, rfl, rfl, rfl, rfl⟩, ?_⟩
  decide +kernel

end Scope

end Stencil
