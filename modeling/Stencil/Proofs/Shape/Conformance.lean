import Stencil.Json.Basic
import Stencil.Proofs.Program.Shaped

/-!
Data that conforms to a shape. Null conforms to every shape, as what is absent does. Whether data
conforms can be computed.
-/

namespace Stencil

/-- That a value is null or has the JSON form of a shape, and so do its parts. Entries that are not
declared may be anything. -/
inductive Conforms (schema : Schema) : Json → Shape → Prop where
  | null {shape : Shape} : Conforms schema .null shape
  | bool {value : Bool} : Conforms schema (.bool value) .bool
  | text {text : String} : Conforms schema (.string text) .text
  | int {value : Int} : Conforms schema (.int value) .number
  | double {value : Number.Double} : Conforms schema (.double value) .number
  | dynamic {value : Json} : Conforms schema value .dynamic
  | optional {value : Json} {inner : Shape} : Conforms schema value inner →
      Conforms schema value (.optional inner)
  | sequence {items : List Json} {element : Shape} :
      (∀ item ∈ items, Conforms schema item element) →
      Conforms schema (.array items) (.sequence element)
  | mapping {entries : List (String × Json)} {value : Shape} :
      (∀ name entry, Table.get? entries name = some entry → Conforms schema entry value) →
      Conforms schema (.object entries) (.mapping value)
  | struct {entries : List (String × Json)} {name : String} :
      (∀ decl field shape entry, schema.struct? name = some decl →
        decl.fields.get? field = some shape → Table.get? entries field = some entry →
        Conforms schema entry shape) →
      Conforms schema (.object entries) (.struct name)
  | enum {variant name : String} : Conforms schema (.string variant) (.enum name)

namespace Shape

/-- Whether anything within a shape is only inspected when it is rendered. Structs are named by
their declarations and have no shapes within them. -/
def hasDynamic : Shape → Bool
  | dynamic => true
  | optional inner | sequence inner | mapping inner => inner.hasDynamic
  | bool | text | number | struct _ | enum _ => false

theorem isDynamic_of_static {shape : Shape} (static : shape.hasDynamic = false) :
    shape.isDynamic = false := by
  cases shape <;> first | rfl | cases static

end Shape

namespace Json

def isScalar : Json → Bool
  | array _ | object _ => false
  | _ => true

def entry (value : Json) (name : String) : Json := (value.get? name).getD null

end Json

variable {schema : Schema} {value : Json} {shape : Shape}

namespace Conforms

theorem core (conforms : Conforms schema value shape) : Conforms schema value shape.core := by
  induction shape with
  | optional inner ih =>
      cases conforms with
      | null => exact .null
      | optional conforms => exact ih conforms
  | _ => exact conforms

theorem of_core (conforms : Conforms schema value shape.core) : Conforms schema value shape := by
  induction shape with
  | optional inner ih => exact .optional (ih conforms)
  | _ => exact conforms

theorem items {element : Shape} (conforms : Conforms schema value shape)
    (sequence : shape.core = .sequence element) :
    value = .null ∨
      ∃ items, value = .array items ∧ ∀ item ∈ items, Conforms schema item element := by
  have form := conforms.core
  rw [sequence] at form
  cases form with
  | null => exact .inl rfl
  | sequence items => exact .inr ⟨_, rfl, items⟩

theorem entries {element : Shape} (conforms : Conforms schema value shape)
    (mapping : shape.core = .mapping element) :
    value = .null ∨ ∃ entries, value = .object entries ∧
      ∀ name entry, Table.get? entries name = some entry → Conforms schema entry element := by
  have form := conforms.core
  rw [mapping] at form
  cases form with
  | null => exact .inl rfl
  | mapping entries => exact .inr ⟨_, rfl, entries⟩

theorem fields {name : String} (conforms : Conforms schema value shape)
    (struct : shape.core = .struct name) :
    value = .null ∨ ∃ entries, value = .object entries ∧
      ∀ decl field part entry, schema.struct? name = some decl →
        decl.fields.get? field = some part → Table.get? entries field = some entry →
        Conforms schema entry part := by
  have form := conforms.core
  rw [struct] at form
  cases form with
  | null => exact .inl rfl
  | struct fields => exact .inr ⟨_, rfl, fields⟩

theorem entry {element : Shape} (conforms : Conforms schema value shape)
    (mapping : shape.core = .mapping element) (name : String) :
    Conforms schema (value.entry name) element := by
  rcases conforms.entries mapping with rfl | ⟨entries, rfl, each⟩
  · exact .null
  · simp only [Json.entry, Json.get?]
    cases hit : Table.get? entries name with
    | none => exact .null
    | some entry => exact each name entry hit

theorem field {structName name : String} {decl : StructDecl} {part : Shape}
    (conforms : Conforms schema value shape) (struct : shape.core = .struct structName)
    (known : schema.struct? structName = some decl) (given : decl.fields.get? name = some part) :
    Conforms schema (value.entry name) part := by
  rcases conforms.fields struct with rfl | ⟨entries, rfl, each⟩
  · exact .null
  · simp only [Json.entry, Json.get?]
    cases hit : Table.get? entries name with
    | none => exact .null
    | some entry => exact each decl name part entry known given hit

theorem isScalar (conforms : Conforms schema value shape) (writable : shape.isWritable = true)
    (static : shape.hasDynamic = false) : value.isScalar = true := by
  induction shape with
  | optional inner ih =>
      cases conforms with
      | null => rfl
      | optional conforms => exact ih conforms writable static
  | dynamic => cases static
  | sequence _ | mapping _ | struct _ => cases writable
  | bool | text | number | enum _ => cases conforms <;> rfl

theorem template (name : String) :
    Conforms schema (.object [("name", .string name)]) (.mapping .text) := by
  refine .mapping ?_
  intro field entry hit
  simp only [Table.get?, List.lookup_cons, List.lookup_nil] at hit
  split at hit
  · cases hit
    exact .text
  · cases hit

end Conforms

namespace Schema

mutual

def accepts (schema : Schema) (value : Json) (shape : Shape) : Bool :=
  match value, shape.core with
  | .null, _ | _, .dynamic => true
  | .bool _, .bool | .string _, .text | .string _, .enum _ => true
  | .int _, .number | .double _, .number => true
  | .array items, .sequence element => acceptsItems schema items element
  | .object entries, .mapping value => acceptsEntries schema (fun _ => some value) [] entries
  | .object entries, .struct name =>
      acceptsEntries schema (fun field => do (← schema.struct? name).fields.get? field) [] entries
  | _, _ => false

def acceptsItems (schema : Schema) (items : List Json) (element : Shape) : Bool :=
  match items with
  | [] => true
  | item :: items => accepts schema item element && acceptsItems schema items element

def acceptsEntries (schema : Schema) (declared? : String → Option Shape) (seen : List String)
    (entries : List (String × Json)) : Bool :=
  match entries with
  | [] => true
  | (name, value) :: entries =>
      (name ∈ seen || (match declared? name with
        | some shape => accepts schema value shape
        | none => true)) && acceptsEntries schema declared? (name :: seen) entries

end

mutual

theorem accepts_iff (value : Json) (shape : Shape) :
    schema.accepts value shape = true ↔ Conforms schema value shape := by
  constructor
  · intro accepted
    refine Conforms.of_core ?_
    unfold accepts at accepted
    split at accepted
    · exact .null
    · next same =>
        rw [same]
        exact .dynamic
    · next same =>
        rw [same]
        exact .bool
    · next same =>
        rw [same]
        exact .text
    · next same =>
        rw [same]
        exact .enum
    · next same =>
        rw [same]
        exact .int
    · next same =>
        rw [same]
        exact .double
    · next items element same =>
        rw [same]
        exact .sequence ((acceptsItems_iff items element).mp accepted)
    · next entries value same =>
        rw [same]
        refine .mapping ?_
        intro name entry hit
        exact (acceptsEntries_iff _ [] entries).mp accepted name value entry (by simp) rfl hit
    · next entries struct same =>
        rw [same]
        refine .struct ?_
        intro decl field shape entry known given hit
        exact (acceptsEntries_iff _ [] entries).mp accepted field shape entry (by simp)
          (by simp [known, given]) hit
    · cases accepted
  · intro conforms
    induction shape with
    | optional inner ih =>
        cases conforms with
        | null => simp [accepts]
        | optional conforms =>
            have accepted := ih conforms
            unfold accepts at accepted ⊢
            exact accepted
    | dynamic => cases value <;> rfl
    | sequence element =>
        cases conforms with
        | null => simp [accepts]
        | sequence each => exact (acceptsItems_iff _ element).mpr each
    | mapping value =>
        cases conforms with
        | null => simp [accepts]
        | @mapping entries _ each =>
            refine (acceptsEntries_iff (fun _ => some value) [] entries).mpr ?_
            intro name shape entry _ given hit
            cases given
            exact each name entry hit
    | struct name =>
        cases conforms with
        | null => simp [accepts]
        | @struct entries _ each =>
            refine (acceptsEntries_iff _ [] entries).mpr ?_
            intro field shape entry _ given hit
            obtain ⟨decl, known, given⟩ := Option.bind_eq_some_iff.mp given
            exact each decl field shape entry known given hit
    | bool | text | number | enum _ => cases conforms <;> rfl

theorem acceptsItems_iff (items : List Json) (element : Shape) :
    schema.acceptsItems items element = true ↔ ∀ item ∈ items, Conforms schema item element := by
  cases items with
  | nil => simp [acceptsItems]
  | cons item items =>
      simp only [acceptsItems, Bool.and_eq_true, accepts_iff item element,
        acceptsItems_iff items element, List.forall_mem_cons]

theorem acceptsEntries_iff (declared? : String → Option Shape) (seen : List String)
    (entries : List (String × Json)) :
    schema.acceptsEntries declared? seen entries = true ↔
      ∀ name shape entry, name ∉ seen → declared? name = some shape →
        Table.get? entries name = some entry → Conforms schema entry shape := by
  cases entries with
  | nil => simp [acceptsEntries, Table.get?]
  | cons entry entries =>
      obtain ⟨key, value⟩ := entry
      rw [acceptsEntries, Bool.and_eq_true, acceptsEntries_iff declared? (key :: seen) entries]
      have first : ∀ shape, schema.accepts value shape = true ↔ Conforms schema value shape :=
        accepts_iff value
      constructor
      · rintro ⟨here, later⟩ name shape entry fresh given hit
        simp only [Table.get?, List.lookup_cons] at hit
        split at hit
        · next same =>
            cases beq_iff_eq.mp same
            cases hit
            simpa [fresh, given, first] using here
        · next other =>
            exact later name shape entry (by simp_all) given hit
      · intro each
        constructor
        · by_cases old : key ∈ seen
          · simp [old]
          · cases given : declared? key with
            | none => simp
            | some shape =>
                simp [first, each key shape value old given (by simp [Table.get?])]
        · intro name shape entry fresh given hit
          rw [List.mem_cons, not_or] at fresh
          obtain ⟨other, fresh⟩ := fresh
          refine each name shape entry fresh given ?_
          simp only [Table.get?, List.lookup_cons, beq_eq_false_iff_ne.mpr other]
          exact hit

end

end Schema

instance : Decidable (Conforms schema value shape) :=
  decidable_of_iff _ (Schema.accepts_iff value shape)

end Stencil
