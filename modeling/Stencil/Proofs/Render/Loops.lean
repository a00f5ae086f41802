import Stencil.Proofs.Render.Complement
import Stencil.Proofs.Render.Values

/-!
Sections over arrays. An array is a value of a sequence shape, or is only known to be one when it is
rendered. Main statement: either way the body is run once for each item, in order, with the item as
the element of the loop.
-/

namespace Stencil

def Shape.isLooped (shape : Shape) : Bool :=
  match shape.core with
  | .sequence element => !element.isSkippable
  | .dynamic => true
  | _ => false

def NodeContent.items? : NodeContent → Option (List Json)
  | .sequence items => some items
  | .leaf .null | .optional none | .optional (some .null) | .empty => some []
  | .leaf _ | .optional _ | .mapping _ | .function _ => none

def Value.items? : Value → Option (List Json)
  | .json value => (NodeContent.ofJson value).items?
  | .node n => n.content.items?
  | .missing => some []
  | .step _ _ => none

namespace Guard

def isLoop : Guard → Bool
  | .each _ _ _ | .eachNode _ _ _ => true
  | .truthy _ | .present _ => false

def loops (guard : Guard) (position length : Nat) (outer : List (Nat × Nat)) : List (Nat × Nat) :=
  if guard.isLoop then (position, length) :: outer else outer

end Guard

/-- The variables and the loops behind guards, each of which passes. -/
inductive Enters : Bindings → List (Nat × Nat) → List Guard → Bindings → List (Nat × Nat) →
    Prop where
  | body {bindings : Bindings} {loops : List (Nat × Nat)} : Enters bindings loops [] bindings loops
  | guard {bindings inner last : Bindings} {loops deeper : List (Nat × Nat)} {guard : Guard}
      {guards : List Guard} {inners : List Bindings} {position : Nat} :
      bindings.passes guard = .ok inners → inners[position]? = some inner →
      Enters inner (guard.loops position inners.length loops) guards last deeper →
      Enters bindings loops (guard :: guards) last deeper

def Scope.Shows (scope : Scope) (bindings : Bindings) (item : Json) : Prop :=
  ∃ element value, scope.current? = some element ∧ bindings.eval element.expr = .ok value ∧
    value.toJson = item

structure Runs (bindings : Bindings) (loops : List (Nat × Nat)) (guards : List Guard)
    (inside : Scope) (items : List Json) (steps : List Bindings) : Prop where
  passes : bindings.passesAll guards = .ok steps
  shows : List.Forall₂ inside.Shows steps items
  enters : ∀ position step, steps[position]? = some step →
    Enters bindings loops guards step ((position, items.length) :: loops)

namespace ContextNode

theorem steps_items {node : ContextNode} {items : List Json}
    (array : node.content.items? = some items) : node.steps.map value = items := by
  obtain ⟨content, around⟩ := node
  cases content with
  | sequence content =>
      cases array
      simp [steps, child, value, NodeContent.value_ofJson, Function.comp_def]
  | leaf content =>
      cases content with
      | null =>
          cases array
          rfl
      | _ => cases array
  | optional content? =>
      match content?, array with
      | none, rfl | some .null, rfl => rfl
  | empty =>
      cases array
      rfl
  | mapping _ | function _ => cases array

end ContextNode

namespace Value

variable {value : Value} {items : List Json}

theorem toNode_items (array : value.items? = some items) :
    ∃ node, value.toNode = .ok node ∧ node.steps.map ContextNode.value = items := by
  cases value with
  | json content => exact ⟨.ofJson content, rfl, ContextNode.steps_items array⟩
  | node node => exact ⟨node, rfl, ContextNode.steps_items array⟩
  | missing => exact ⟨.empty, rfl, ContextNode.steps_items array⟩
  | step index length => cases array

theorem items_absent (absent : value.isPresent = false) (array : value.items? = some items) :
    items = [] := by
  obtain ⟨node, made, same⟩ := toNode_items array
  obtain ⟨other, again, none⟩ := steps_toNode_absent absent
  cases made.symm.trans again
  rw [← same, none, List.map_nil]

end Value

namespace Bindings

variable {bindings inner : Bindings} {expr : Expr} {value : Value} {items : List Json}

theorem sequence_items (evaluated : bindings.eval expr = .ok value)
    (array : value.items? = some items) : bindings.sequence expr = .ok items := by
  cases value with
  | node node =>
      have same := ContextNode.steps_items array
      simp [sequence, evaluated, same]
  | json content =>
      cases content with
      | array _ | null =>
          cases array
          simp [sequence, evaluated]
      | _ => cases array
  | missing =>
      cases array
      simp [sequence, evaluated]
  | step index length => cases array

theorem nodeSteps_items (evaluated : bindings.eval expr = .ok value)
    (array : value.items? = some items) :
    ∃ nodes, bindings.nodeSteps expr = .ok nodes ∧ nodes.map ContextNode.value = items := by
  obtain ⟨node, made, same⟩ := Value.toNode_items array
  exact ⟨node.steps, by simp [nodeSteps, evaluated, made], same⟩

theorem passes_each {guard : Guard} {inners : List Bindings} (element index : String)
    (guarded : guard = .each expr element index ∨ guard = .eachNode expr element index)
    (passed : bindings.passes guard = .ok inners) :
    ∃ values, inners = bindings.loop element index values := by
  obtain rfl | rfl := guarded
  all_goals
    obtain ⟨items, -, same⟩ := bind_eq_ok.mp passed
    cases same
    exact ⟨_, rfl⟩

theorem passes_test {guard : Guard} {inners : List Bindings} (test : guard.isLoop = false)
    (passed : bindings.passes guard = .ok inners) (member : inner ∈ inners) : inner = bindings := by
  cases guard with
  | each _ _ _ | eachNode _ _ _ => cases test
  | truthy expr | present expr =>
      obtain ⟨value, -, same⟩ := bind_eq_ok.mp passed
      cases same
      split at member
      · exact List.mem_singleton.mp member
      · cases member

end Bindings

theorem Scope.elementLayer_of_not_skippable {shape : Shape} (always : shape.isSkippable = false)
    (expr : Expr) : elementLayer expr shape = ([], .value ⟨expr, shape⟩) := by
  cases shape <;> first | rfl | cases always

namespace Enters

variable {bindings last : Bindings} {loops deeper : List (Nat × Nat)} {guard : Guard}
  {guards : List Guard} {expr : Expr}

theorem of_test (test : guard.isLoop = false)
    (enters : Enters bindings loops (guard :: guards) last deeper) :
    Enters bindings loops guards last deeper := by
  cases enters with
  | guard passed hit further =>
      cases Bindings.passes_test test passed (List.mem_of_getElem? hit)
      rwa [Guard.loops, test, if_neg Bool.false_ne_true] at further

theorem of_addPresent
    (enters : Enters bindings loops (Scope.addPresent expr guards) last deeper) :
    Enters bindings loops guards last deeper := by
  unfold Scope.addPresent at enters
  split at enters
  · exact enters
  · exact enters.of_test rfl

theorem addPresent {value : Value} (evaluated : bindings.eval expr = .ok value)
    (present : value.isPresent = true) (enters : Enters bindings loops guards last deeper) :
    Enters bindings loops (Scope.addPresent expr guards) last deeper := by
  unfold Scope.addPresent
  split
  · exact enters
  · have passed : bindings.passes (.present expr) = .ok [bindings] := by
      simp [Bindings.passes, evaluated, present]
    exact .guard passed (show [bindings][0]? = some bindings from rfl) enters

theorem of_element {shape : Shape}
    (enters : Enters bindings loops (Scope.elementLayer expr shape).1 last deeper) :
    last = bindings ∧ deeper = loops := by
  induction shape with
  | bool =>
      cases enters.of_test rfl
      exact ⟨rfl, rfl⟩
  | optional inner ih => exact ih enters.of_addPresent
  | text | number | dynamic | sequence _ | mapping _ | struct _ | enum _ =>
      cases enters
      exact ⟨rfl, rfl⟩

theorem of_loop {element index : String}
    (guarded : guard = .each expr element index ∨ guard = .eachNode expr element index)
    (enters : Enters bindings loops (guard :: guards) last deeper) :
    ∃ value position length,
      Enters (bindings.withStep element value index position length) ((position, length) :: loops)
        guards last deeper := by
  have loop : guard.isLoop = true := by obtain rfl | rfl := guarded <;> rfl
  cases enters with
  | guard passed hit further =>
      obtain ⟨values, rfl⟩ := Bindings.passes_each element index guarded passed
      rw [Guard.loops, loop, if_pos rfl] at further
      obtain ⟨value, rfl⟩ := Bindings.getElem?_loop hit
      rw [Bindings.length_loop] at further
      exact ⟨value, _, _, further⟩

end Enters

namespace Runs

variable {bindings : Bindings} {loops : List (Nat × Nat)} {guards : List Guard} {inside : Scope}
  {expr : Expr} {value : Value} {items : List Json} {steps : List Bindings}

theorem of_loop {guard : Guard} {element index : String} {values : List Value} {shape : Shape}
    {outer : Scope} (loop : guard.isLoop = true) (distinct : element ≠ index)
    (passed : bindings.passes guard = .ok (bindings.loop element index values))
    (same : values.map Value.toJson = items) :
    Runs bindings loops [guard] (.value ⟨.var element, shape⟩ :: outer) items
      (bindings.loop element index values) := by
  subst same
  refine ⟨Bindings.passesAll_singleton passed, ?_, ?_⟩
  · refine Bindings.forall₂_loop (by simp) ?_
    intro position here there
    exact ⟨_, _, rfl, Bindings.eval_element distinct _ _ _, by simp⟩
  · intro position step hit
    refine .guard passed hit ?_
    rw [Guard.loops, loop, if_pos rfl, Bindings.length_loop, List.length_map]
    exact .body

theorem none (passed : bindings.passesAll guards = .ok []) :
    Runs bindings loops guards inside [] [] :=
  ⟨passed, .nil, fun position step hit => by cases hit⟩

theorem of_addPresent (evaluated : bindings.eval expr = .ok value)
    (array : value.items? = some items) (runs : Runs bindings loops guards inside items steps) :
    ∃ steps, Runs bindings loops (Scope.addPresent expr guards) inside items steps := by
  have passed := Bindings.passesAll_addPresent evaluated guards
  cases present : value.isPresent with
  | true =>
      rw [present, if_pos rfl, runs.passes] at passed
      refine ⟨steps, passed, runs.shows, ?_⟩
      intro position step hit
      exact (runs.enters position step hit).addPresent evaluated present
  | false =>
      rw [present, if_neg Bool.false_ne_true] at passed
      obtain rfl := Value.items_absent present array
      exact ⟨[], .none passed⟩

theorem of_section {schema : Schema} {scope : Scope} {names after : FreshNames} {shape : Shape}
    (opened : Scope.sectionOver schema scope expr names shape = .ok (guards, inside, after))
    (looped : shape.isLooped = true) (evaluated : bindings.eval expr = .ok value)
    (array : value.items? = some items) :
    ∃ steps, Runs bindings loops guards inside items steps := by
  induction shape generalizing guards with
  | optional inner ih =>
      obtain ⟨within, deeper, rfl⟩ := Scope.sectionOver_optional opened
      obtain ⟨steps, runs⟩ := ih deeper looped
      exact runs.of_addPresent evaluated array
  | sequence shape =>
      obtain ⟨element, index, loop, rfl, rfl⟩ := Scope.sectionOver_sequence opened
      have sequence := Bindings.sequence_items evaluated array
      have passed : bindings.passes (.each expr element index) =
          .ok (bindings.loop element index (items.map .json)) := by
        simp only [Bindings.passes, sequence, ok_bind, pure_eq_ok]
      have always : shape.isSkippable = false := by simpa [Shape.isLooped, Shape.core] using looped
      rw [Scope.elementLayer_of_not_skippable always]
      exact ⟨_, of_loop rfl loop.distinct passed (by simp [Function.comp_def, Value.toJson])⟩
  | dynamic =>
      obtain ⟨element, index, loop, rfl, rfl⟩ := Scope.sectionOver_dynamic opened
      obtain ⟨nodes, steps, same⟩ := Bindings.nodeSteps_items evaluated array
      have passed : bindings.passes (.eachNode expr element index) =
          .ok (bindings.loop element index (nodes.map .node)) := by
        simp only [Bindings.passes, steps, ok_bind, pure_eq_ok]
      refine ⟨_, of_loop rfl loop.distinct passed ?_⟩
      rw [List.map_map, ← same]
      rfl
  | bool | text | number | mapping _ | struct _ | enum _ => cases looped

end Runs

end Stencil
