import Stencil.Proofs.Render.Bindings
import Stencil.Proofs.Render.NodeSearch
import Stencil.Proofs.Render.Values
import Stencil.Proofs.Render.Walk
import Stencil.Proofs.Scope.Dynamic

/-!
Rendering without a schema reads names on a stack of values. What carries the proof is that a node
and those around it answer as the stack does, although they hold more: sequences stand between their
items and what is around them. Main statement: a template of plain tags writes what it reads on the
stack.
-/

namespace Stencil

namespace ContextStack

def find? (stack : List Json) (name : String) : Option Json :=
  stack.findSome? fun value => (value.get? name).filter (!·.isNull)

/-- The value of a name, which is null if there is none. A dot is the top of the stack. -/
def value? (stack : List Json) (name : String) : Option Json :=
  if name = "." then stack.head? else some ((find? stack name).getD .null)

/-- The values that the body of a section is read for: the items of an array, and any other value
once unless it is null or false. -/
def steps : Json → List Json
  | .array items => items
  | .null | .bool false => []
  | value => [value]

def reading : Reading (List Json) where
  value := value?
  enter stack name := (value? stack name).map fun value => (steps value).map (· :: stack)
  invert stack name := (value? stack name).map fun value =>
    if (steps value).isEmpty then [stack] else []

/-- Names that are no paths, loop names or indices. -/
def Plain (name : String) : Prop :=
  name = "." ∨ '.' ∉ name.toList ∧ name.toList.head? ≠ some '@' ∧ name.toList.head? ≠ some '-' ∧
    NodeContent.index? name = none

instance : DecidablePred Plain := fun _ => inferInstanceAs (Decidable (_ ∨ _))

end ContextStack

namespace NodeContent

theorem child?_ofJson {name : String} (noIndex : index? name = none) (value : Json) :
    (ofJson value).child? name = (value.get? name).filter (!·.isNull) := by
  cases value <;> simp [ofJson, child?, Json.get?, noIndex]

end NodeContent

namespace ContextNode

def Mirrors (node : ContextNode) (value : Json) (stack : List Json) : Prop :=
  node.content = .ofJson value ∧ ∀ name, NodeContent.index? name = none →
    NodeContent.search? node.chain name = ContextStack.find? (value :: stack) name

namespace Mirrors

variable {node : ContextNode} {value : Json} {stack : List Json}

theorem root (data : Json) : Mirrors (.ofJson data) data [] := by
  refine ⟨rfl, ?_⟩
  intro name noIndex
  simp only [ofJson, chain, NodeContent.search?, ContextStack.find?, List.findSome?_cons,
    List.findSome?_nil, NodeContent.child?_ofJson noIndex]

theorem found {name : String} {part : Json} (mirrors : Mirrors node value stack)
    (noIndex : NodeContent.index? name = none)
    (hit : ContextStack.find? (value :: stack) name = some part) :
    node.find? name = some ⟨.ofJson part, node.chain⟩ ∧
      Mirrors ⟨.ofJson part, node.chain⟩ part (value :: stack) := by
  constructor
  · rw [find?_eq_search?, mirrors.2 name noIndex, hit]
    rfl
  · refine ⟨rfl, ?_⟩
    intro other noIndex
    have outer := mirrors.2 other noIndex
    simp only [NodeContent.search?, ContextStack.find?, chain] at outer ⊢
    rw [List.findSome?_cons, outer, NodeContent.child?_ofJson noIndex]
    rfl

theorem again (mirrors : Mirrors node value stack) : Mirrors node value (value :: stack) := by
  refine ⟨mirrors.1, ?_⟩
  intro name noIndex
  rw [mirrors.2 name noIndex]
  simp only [ContextStack.find?, List.findSome?_cons]
  split <;> simp_all

theorem item {items : List Json} (mirrors : Mirrors node (.array items) stack) (item : Json) :
    Mirrors (node.child item) item stack := by
  refine ⟨rfl, ?_⟩
  intro name noIndex
  have outer := mirrors.2 name noIndex
  simp only [NodeContent.search?, ContextStack.find?, chain, child] at outer ⊢
  rw [List.findSome?_cons, outer, NodeContent.child?_ofJson noIndex]
  simp only [List.findSome?_cons, Json.get?, Option.filter_none]

/-- The nodes that a section is rendered for mirror the values that it is read for. -/
theorem steps (mirrors : Mirrors node value stack) :
    List.Forall₂ (fun child item => Mirrors child item stack) node.steps
      (ContextStack.steps value) := by
  have same := mirrors.1
  unfold ContextNode.steps
  cases value with
  | array items =>
      simp only [same, NodeContent.ofJson, ContextStack.steps]
      rw [List.forall₂_map_left_iff, List.forall₂_same]
      intro item _
      exact mirrors.item item
  | null => simp [same, NodeContent.ofJson, ContextStack.steps, isFalsey, NodeContent.isFalsey]
  | bool value =>
      cases value with
      | false => simp [same, NodeContent.ofJson, ContextStack.steps, isFalsey, NodeContent.isFalsey]
      | true =>
          simpa [same, NodeContent.ofJson, ContextStack.steps, isFalsey, NodeContent.isFalsey]
            using mirrors
  | int _ | double _ | string _ | object _ =>
      simpa [same, NodeContent.ofJson, ContextStack.steps, isFalsey, NodeContent.isFalsey]
        using mirrors

end Mirrors

end ContextNode

namespace Scope

variable {schema : Schema} {scope : Scope} {name : String}

theorem refers_plain {purpose : NameUse} {found : ShapedExpr} (dynamic : IsDynamic scope)
    (plain : ContextStack.Plain name) (refers : Refers schema scope name purpose found) :
    ∃ current, scope.current? = some current ∧
      (name = "." ∧ found = current ∨
        name ≠ "." ∧ NodeContent.index? name = none ∧
          found = ⟨.nodeSearch current.expr name, .dynamic⟩) := by
  rcases refers with ⟨dot, current⟩ | ⟨noDot, done⟩
  · exact ⟨found, current, .inl ⟨dot, rfl⟩⟩
  · rcases plain with dot | ⟨single, noRoot, noLoop, noIndex⟩
    · exact absurd dot noDot
    · obtain ⟨first, rest, base, pieces, -, start, follow⟩ := lookup_value done
      rw [segments_eq_singleton single, List.cons.injEq] at pieces
      obtain ⟨rfl, rfl⟩ := pieces
      simp only [descend, Except.ok.injEq] at follow
      subst follow
      rcases lookupFirst_value start with fixed | ⟨-, declared | ⟨-, search⟩⟩
      · simp [fixed?_plain dynamic noRoot] at fixed
      · simp [find?_declared_plain dynamic noRoot noLoop] at declared
      · obtain ⟨current, here, rfl⟩ := find?_all_plain dynamic noRoot noLoop search
        exact ⟨current, here, .inr ⟨noDot, noIndex, rfl⟩⟩

end Scope

namespace ContextStack

/-- That a stack holds what is in scope: the innermost value mirrors it, and a new variable hides
none. -/
structure Reflects (scope : Scope) (names : FreshNames) (bindings : Bindings) (stack : List Json) :
    Prop where
  covers : names.Covers bindings
  dynamic : scope.IsDynamic
  current : ∃ found value node top outer, scope.current? = some found ∧
    bindings.eval found.expr = .ok value ∧ value.toNode = .ok node ∧ value.text = top.text ∧
    node.Mirrors top outer ∧ stack = top :: outer

namespace Reflects

variable {scope : Scope} {names after : FreshNames} {bindings : Bindings} {stack : List Json}
  {found : ShapedExpr} {name : String}

theorem later (reflects : Reflects scope names bindings stack) (more : after.Extends names) :
    Reflects scope after bindings stack :=
  ⟨reflects.covers.later more, reflects.dynamic, reflects.current⟩

theorem shape_current (reflects : Reflects scope names bindings stack)
    (current : scope.current? = some found) : found.shape = .dynamic := by
  obtain ⟨layer, member, hit⟩ := List.exists_of_findSome?_eq_some current
  have here := reflects.dynamic layer member
  cases layer with
  | value other =>
      cases hit
      exact here
  | guard other => cases here
  | _ => simp at hit

theorem denotes {schema : Schema} {purpose : NameUse}
    (reflects : Reflects scope names bindings stack) (plain : Plain name)
    (refers : Scope.Refers schema scope name purpose found) :
    found.shape = .dynamic ∧ ∃ value json node, bindings.eval found.expr = .ok value ∧
      value? stack name = some json ∧ value.text = json.text ∧ value.toNode = .ok node ∧
      List.Forall₂ (fun child item => child.Mirrors item stack) node.steps (steps json) := by
  obtain ⟨current, here, cases⟩ := Scope.refers_plain reflects.dynamic plain refers
  obtain ⟨other, value, node, top, outer, same, evaluated, made, text, mirrors, rfl⟩ :=
    reflects.current
  cases here.symm.trans same
  rcases cases with ⟨rfl, rfl⟩ | ⟨noDot, noIndex, rfl⟩
  · exact ⟨reflects.shape_current here, value, top, node, evaluated, rfl, text, made,
      mirrors.again.steps⟩
  · refine ⟨rfl, ?_⟩
    cases search : find? (top :: outer) name with
    | some part =>
        obtain ⟨hit, inner⟩ := mirrors.found noIndex search
        refine ⟨.node ⟨.ofJson part, node.chain⟩, part, _, ?_, ?_, ?_, rfl, inner.steps⟩
        · simp [Bindings.eval, evaluated, made, hit]
        · simp [value?, noDot, search]
        · simp [Value.text, ContextNode.text, ContextNode.value, NodeContent.value_ofJson]
    | none =>
        have missed : node.find? name = none := by
          rw [ContextNode.find?_eq_search?, mirrors.2 name noIndex, search]
          rfl
        refine ⟨.node .empty, .null, .empty, ?_, ?_, rfl, rfl, .nil⟩
        · simp [Bindings.eval, evaluated, made, missed]
        · simp [value?, noDot, search]

theorem step {element index : String} {child : ContextNode} {item : Json}
    (reflects : Reflects scope names bindings stack)
    (loop : names.LoopNames element index after) (mirrors : child.Mirrors item stack)
    (position length : Nat) :
    Reflects (.value ⟨.var element, .dynamic⟩ :: .iteration index :: scope) after
      (bindings.withStep element (.node child) index position length) (item :: stack) := by
  obtain ⟨covers, -, bound⟩ :=
    reflects.covers.loop loop (Value.node child) (.step position length)
  refine ⟨covers, ?_, ?_⟩
  · exact List.forall_mem_cons.mpr ⟨rfl, List.forall_mem_cons.mpr ⟨trivial, reflects.dynamic⟩⟩
  · refine ⟨_, .node child, child, item, stack, rfl, ?_, rfl, ?_, mirrors, rfl⟩
    · simp only [Bindings.eval, Bindings.withStep, bound]
    · simp [Value.text, ContextNode.text, ContextNode.value, mirrors.1, NodeContent.value_ofJson]

theorem passes {expr : Expr} {value : Value} {node : ContextNode} {items : List Json}
    {element index : String} (reflects : Reflects scope names bindings stack)
    (loop : names.LoopNames element index after) (evaluated : bindings.eval expr = .ok value)
    (made : value.toNode = .ok node)
    (mirrors : List.Forall₂ (fun child item => ContextNode.Mirrors child item stack) node.steps
      items) :
    ∃ inners, bindings.passes (.eachNode expr element index) = .ok inners ∧
      List.Forall₂
        (Reflects (.value ⟨.var element, .dynamic⟩ :: .iteration index :: scope) after) inners
        (items.map (· :: stack)) := by
  refine ⟨bindings.loop element index (node.steps.map .node), ?_, ?_⟩
  · simp only [Bindings.passes, Bindings.nodeSteps, evaluated, made, ok_bind, pure_eq_ok]
  · refine Bindings.forall₂_loop (by simp [mirrors.length_eq]) ?_
    intro position here there
    simp only [List.length_map] at here there
    simp only [List.getElem_map, List.length_map]
    exact reflects.step loop (mirrors.get here there) position _

theorem inverted (reflects : Reflects scope names bindings stack) :
    Reflects (.inverted :: scope) names bindings stack :=
  ⟨reflects.covers, List.forall_mem_cons.mpr ⟨trivial, reflects.dynamic⟩, reflects.current⟩

end Reflects

theorem follows : Follows .dynamic Plain reading Reflects where
  value := by
    intro scope names after bindings stack kind name purpose escaping found reflects plain writing
      means
    obtain ⟨other, refers, -, same, rfl⟩ :=
      Scope.meaning_variable (TagKind.purpose_of_writing? writing) means
    cases same
    obtain ⟨-, value, json, node, evaluated, read, text, -, -⟩ := reflects.denotes plain refers
    exact ⟨⟨value, json, evaluated, read, text⟩, reflects⟩
  enter := by
    intro scope names after bindings stack name guards inside reflects plain means
    rcases Scope.meaning_openSection means with
      ⟨found, _, _, refers, opened, same⟩ | ⟨_, _, same, _⟩
    · cases same
      obtain ⟨dynamic, value, json, node, evaluated, read, -, made, mirrors⟩ :=
        reflects.denotes plain refers
      rw [dynamic] at opened
      obtain ⟨element, index, loop, rfl, rfl⟩ := Scope.sectionOver_dynamic opened
      obtain ⟨inners, passed, each⟩ := reflects.passes loop evaluated made mirrors
      refine ⟨⟨inners, _, Bindings.passesAll_singleton passed, ?_, each⟩,
        reflects.later (FreshNames.extends_loop loop)⟩
      simp [reading, read]
    · cases same
  invert := by
    intro scope names after bindings stack name guard inside reflects plain means
    obtain ⟨found, _, refers, opened, same⟩ := Scope.meaning_openInverted means
    cases same
    obtain ⟨dynamic, value, json, node, evaluated, read, -, made, mirrors⟩ :=
      reflects.denotes plain refers
    rw [dynamic] at opened
    obtain ⟨element, index, loop, rfl⟩ := Scope.guardOver_dynamic opened
    obtain ⟨inners, passed, each⟩ := reflects.passes loop evaluated made mirrors
    have further := reflects.later (FreshNames.extends_loop loop)
    refine ⟨⟨inners, if (steps json).isEmpty then [stack] else [], passed, ?_, ?_⟩, further⟩
    · simp [reading, read]
    · have same : (steps json).isEmpty = inners.isEmpty := by
        have length := each.length_eq
        rw [List.length_map] at length
        rw [Bool.eq_iff_iff, List.isEmpty_iff_length_eq_zero, List.isEmpty_iff_length_eq_zero,
          length]
      rw [same]
      split
      · exact .cons further.inverted .nil
      · exact .nil

/-- A template whose tags name entries of the data writes what is read on a stack that starts with
the data. -/
theorem render_eq_of_dynamic {library : Library} {options : Options} {template : Template}
    {program : Program} (plain : template.Plain Plain)
    (compiled : Program.compile .dynamic library options template = .ok program)
    (renderer : Renderer) (data : Json) (context : ContextNode) :
    ∃ text, reading.text? renderer [data] template = some text ∧
      renderer.render program data context = .ok text := by
  refine Program.compile_follows follows rfl compiled plain ?_
  refine ⟨Bindings.covers_root _ data context, Scope.isDynamic_root, ?_⟩
  exact ⟨_, .json data, .ofJson data, data, [], rfl, rfl, rfl, rfl, .root data, rfl⟩

/-- People of whom one names no city, so that the city around them is written. -/
theorem render_eq_of_dynamic_people :
    let template : Template :=
      ⟨"people", "{{# people}}{{name}} of {{city}}{{^tags}}!\n{{/tags}}{{/people}}"⟩
    let data : Json := .object [("city", .string "Oslo"),
      ("people", .array [.object [("name", .string "Ann")],
        .object [("city", .string "Bergen"), ("name", .string "Bo")]])]
    ∃ program, Program.compile .dynamic (.ofCatalog []) .default template = .ok program ∧
      ∃ text, reading.text? ⟨Escaper.html, []⟩ [data] template = some text ∧
        Renderer.render ⟨Escaper.html, []⟩ program data .empty = .ok text := by
  intro template data
  have compiles : (Program.compile .dynamic (.ofCatalog []) .default template).isOk = true := by
    decide +kernel
  obtain ⟨program, compiled⟩ := eq_ok_of_isOk compiles
  exact ⟨program, compiled, render_eq_of_dynamic (by decide +kernel) compiled _ _ _⟩

example : reading.text? Renderer.plain [.object [("a", .array [.object [], .null]), ("b", .int 1)]]
    ⟨"numbers", "{{#a}}({{b}}){{/a}}"⟩ = some "(1)(1)" := by decide +kernel

end ContextStack

end Stencil
