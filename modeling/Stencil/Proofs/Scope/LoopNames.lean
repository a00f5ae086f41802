import Stencil.Proofs.Scope.Precedence
import Stencil.Proofs.Scope.Sections

/-!
The names that a loop adds to its body. Main statement: where no field and no variant is called like
one of them, they refer to the innermost loop, whatever stands between it and the tag.
-/

namespace Stencil

def loopNames : List String := ["@first", "-first", "@last", "-last", "@index", "-index"]

/-- Whether no field and no variant is called like a name that loops add. -/
def Schema.omitsLoopNames (schema : Schema) : Bool :=
  (schema.structs.all fun entry => entry.2.fields.all fun field => !loopNames.contains field.1) &&
    schema.enums.all fun entry => entry.2.variants.all fun variant => !loopNames.contains variant

def Schema.isWhole (schema : Schema) : Bool :=
  schema.isComplete && schema.root.isDeclared schema && schema.lambdas.all fun entry =>
    match entry.2.returns with
    | .raw => true
    | .model shape => shape.isDeclared schema

namespace Schema

variable {schema : Schema}

theorem isComplete_of_isWhole (whole : schema.isWhole = true) : schema.isComplete = true :=
  (Bool.and_eq_true_iff.mp (Bool.and_eq_true_iff.mp whole).1).1

theorem isDeclared_root (whole : schema.isWhole = true) : schema.root.isDeclared schema = true :=
  (Bool.and_eq_true_iff.mp (Bool.and_eq_true_iff.mp whole).1).2

theorem isDeclared_of_model {name : String} {decl : LambdaDecl} {shape : Shape}
    (whole : schema.isWhole = true) (known : schema.lambdas.get? name = some decl)
    (returns : decl.returns = .model shape) : shape.isDeclared schema = true := by
  obtain ⟨before, rest, entries, -⟩ := List.lookup_eq_some_iff.mp known
  have each := (Bool.and_eq_true_iff.mp whole).2
  have here := List.all_eq_true.mp each (name, decl) (by simp [entries])
  simpa only [returns] using here

end Schema

namespace Scope

def iterations : Scope → List String
  | [] | .root _ :: _ => []
  | .iteration index :: outer => index :: iterations outer
  | .value _ :: outer | .guard _ :: outer | .inverted :: outer => iterations outer

variable {schema : Schema} {scope inside : Scope} {name index : String} {found hit : ShapedExpr}
  {outer : List String} {purpose : NameUse}

theorem mem_loopNames (looped : loopName? index name = some hit) : name ∈ loopNames := by
  by_contra other
  simp only [loopNames, List.mem_cons, List.not_mem_nil, or_false, not_or] at other
  simp [loopName?, other] at looped

theorem loopName?_isDeclared (schema : Schema) (looped : loopName? index name = some hit) :
    hit.shape.isDeclared schema = true := by
  unfold loopName? at looped
  repeat' split at looped
  all_goals cases looped
  all_goals rfl

theorem segments_loopName (member : name ∈ loopNames) : segments name = [name] := by
  simp only [loopNames, List.mem_cons, List.not_mem_nil, or_false] at member
  obtain rfl | rfl | rfl | rfl | rfl | rfl := member <;> exact segments_eq_singleton (by decide)

theorem isEmpty_loopName (member : name ∈ loopNames) : [name].any String.isEmpty = false := by
  simp only [loopNames, List.mem_cons, List.not_mem_nil, or_false] at member
  obtain rfl | rfl | rfl | rfl | rfl | rfl := member <;> decide

theorem fixed?_root_loopName (member : name ∈ loopNames) (shape : Shape) :
    (root shape).fixed? name = none := by
  simp only [loopNames, List.mem_cons, List.not_mem_nil, or_false] at member
  obtain rfl | rfl | rfl | rfl | rfl | rfl := member <;> rfl

theorem child?_loopName (omits : schema.omitsLoopNames = true) (member : name ∈ loopNames)
    (closed : found.shape.isOpenEnded = false) {part? : Option ShapedExpr}
    (has : child? schema found name = .ok part?) : part? = none := by
  obtain ⟨structs, enums⟩ := Bool.and_eq_true_iff.mp omits
  obtain ⟨expr, shape⟩ := found
  cases shape with
  | struct structName =>
      obtain ⟨decl, declared, same⟩ := bind_eq_ok.mp has
      have known := structDecl_ok declared
      cases same
      rw [Option.map_eq_none_iff]
      by_contra given
      obtain ⟨field, given⟩ := Option.ne_none_iff_exists'.mp given
      obtain ⟨before, rest, entries, -⟩ := List.lookup_eq_some_iff.mp known
      obtain ⟨front, more, fields, -⟩ := List.lookup_eq_some_iff.mp given
      have each := List.all_eq_true.mp structs (structName, decl) (by simp [entries])
      have apart := List.all_eq_true.mp each (name, field) (by simp [fields])
      simp [member] at apart
  | enum enumName =>
      rw [child?] at has
      dsimp only at has
      split at has
      · cases has
      · next decl known =>
          obtain ⟨before, rest, entries, -⟩ := List.lookup_eq_some_iff.mp known
          have each := List.all_eq_true.mp enums (enumName, decl) (by simp [entries])
          have apart : name ∉ decl.variants := by
            intro variant
            have other := List.all_eq_true.mp each name variant
            simp [member] at other
          rw [if_neg apart] at has
          exact (Except.ok.inj has).symm
  | bool | text | number | optional _ | sequence _ => exact (Except.ok.inj has).symm
  | mapping _ | dynamic => cases closed

theorem find?_loopName (omits : schema.omitsLoopNames = true)
    (innermost : scope.iterations = index :: outer) (looped : loopName? index name = some hit)
    {result : Option ShapedExpr} (search : find? schema name .declared scope = .ok result) :
    result = some hit := by
  induction scope generalizing result with
  | nil => cases innermost
  | cons layer scope ih =>
      cases layer with
      | root bindings => cases innermost
      | guard _ | inverted => exact ih innermost search
      | iteration other =>
          obtain ⟨rfl, -⟩ := List.cons.inj innermost
          rw [find?, looped] at search
          exact (Except.ok.inj search).symm
      | value found =>
          cases answers : found.shape.isOpenEnded with
          | true =>
              rw [find?, answers, if_pos rfl] at search
              obtain ⟨further, outwards, search⟩ := bind_eq_ok.mp search
              obtain rfl := ih innermost outwards
              exact (Except.ok.inj search).symm
          | false =>
              rw [find?_value answers] at search
              obtain ⟨part?, has, search⟩ := bind_eq_ok.mp search
              obtain rfl := child?_loopName omits (mem_loopNames looped) answers has
              exact ih innermost search

theorem eq_of_refers_loopName (omits : schema.omitsLoopNames = true)
    (innermost : scope.iterations = index :: outer) (looped : loopName? index name = some hit)
    (free : scope.fixed? name = none) (refers : Refers schema scope name purpose found) :
    found = hit := by
  have segment := segments_loopName (mem_loopNames looped)
  obtain ⟨rfl, -⟩ | ⟨-, done⟩ := refers
  · exact absurd (mem_loopNames looped) (by decide)
  · obtain ⟨first, rest, base, pieces, -, start, follow⟩ := lookup_value done
    rw [segment, List.cons.injEq] at pieces
    obtain ⟨rfl, rfl⟩ := pieces
    obtain rfl : base = found := Except.ok.inj follow
    obtain fixed | ⟨-, declared | ⟨none, -⟩⟩ := lookupFirst_value start
    · cases free.symm.trans fixed
    · exact Option.some.inj (find?_loopName omits innermost looped declared)
    · cases find?_loopName omits innermost looped none

theorem refers_loopName (omits : schema.omitsLoopNames = true) (declared : scope.IsDeclared schema)
    (innermost : scope.iterations = index :: outer) (looped : loopName? index name = some hit)
    (free : scope.fixed? name = none) (purpose : NameUse) :
    Refers schema scope name purpose hit := by
  have member := mem_loopNames looped
  have search := find?_declared declared name
  have own := find?_loopName omits innermost looped search
  right
  refine ⟨by rintro rfl; exact absurd member (by decide), ?_⟩
  rw [lookup_cons (segments_loopName member), isEmpty_loopName member, if_neg Bool.false_ne_true,
    lookupFirst_eq declared, free, own]
  rfl

end Scope

end Stencil
