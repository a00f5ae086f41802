import Stencil.Proofs.Compile.Points
import Stencil.Proofs.Template.Unmatched

/-!
What stands around the tokens of a body. Main statement: the constructs that are open in front of a
token are those of the tags that are left open there, each of which has added its layers to the
scope, and so is the parent call or lambda that tokens are kept for.
-/

namespace Stencil

inductive TagKind.Adds : TagKind → List Layer → Prop where
  | guard (found : ShapedExpr) : Adds .openSection [.guard found]
  | value (found : ShapedExpr) : Adds .openSection [.value found]
  | loop (element : Layer) (index : String) : Adds .openSection [element, .iteration index]
  | inverted : Adds .openInverted [.inverted]
  | block : Adds .openBlock []

theorem TagKind.Adds.isOpening {kind : TagKind} {added : List Layer} (adds : kind.Adds added) :
    kind.isOpening = true := by
  cases adds <;> rfl

namespace Scope

variable {schema : Schema} {scope inside : Scope} {expr : Expr} {names after : FreshNames}
  {shape : Shape} {guards : List Guard} {name : String} {guard : Guard}

theorem sectionOver_adds
    (opened : sectionOver schema scope expr names shape = .ok (guards, inside, after)) :
    ∃ added, inside = added ++ scope ∧ TagKind.Adds .openSection added := by
  induction shape generalizing guards with
  | bool =>
      obtain ⟨-, rfl, -⟩ := sectionOver_bool opened
      exact ⟨_, rfl, .guard _⟩
  | optional inner ih =>
      obtain ⟨within, deeper, -⟩ := sectionOver_optional opened
      exact ih deeper
  | sequence _ =>
      obtain ⟨element, index, -, -, rfl⟩ := sectionOver_sequence opened
      exact ⟨_, rfl, .loop _ index⟩
  | dynamic =>
      obtain ⟨element, index, -, -, rfl⟩ := sectionOver_dynamic opened
      exact ⟨_, rfl, .loop _ index⟩
  | struct _ | text | number | mapping _ | enum _ =>
      obtain ⟨-, rfl, -⟩ := sectionOver_single rfl opened
      exact ⟨_, rfl, .value _⟩

theorem meaning_openSection_adds
    (done : meaning schema scope name .openSection names =
      .ok (.openSection guards inside, after)) :
    ∃ added, inside = added ++ scope ∧ TagKind.Adds .openSection added := by
  obtain ⟨found, _, _, -, opened, same⟩ | ⟨decl, -, same, -⟩ := meaning_openSection done
  · cases same
    exact sectionOver_adds opened
  · cases same

end Scope

namespace ParentCall

variable {call next last : ParentCall} {token : Token} {tokens : List Token} {parent : String}
  {position : Position} {closed : Bool}

theorem push_depth (pushed : call.push token = .ok (next, closed)) (filled : call.openNames ≠ []) :
    (∃ name, token.opened? = some name ∧ closed = false ∧
      next.openNames.length = call.openNames.length + 1) ∨
    (∃ name, token.closed? = some name ∧ (closed = true ↔ next.openNames = []) ∧
      call.openNames.length = next.openNames.length + 1) ∨
    token.opened? = none ∧ token.closed? = none ∧ closed = false ∧
      next.openNames.length = call.openNames.length := by
  cases opened : token.opened? with
  | some name =>
      rw [push_opened opened] at pushed
      repeat' split at pushed
      all_goals cases pushed
      · exact .inl ⟨name, rfl, rfl, rfl⟩
      · exact .inl ⟨name, rfl, rfl, by simp⟩
  | none =>
      cases closes : token.closed? with
      | some name =>
          obtain ⟨first, rest, names⟩ := List.exists_cons_of_ne_nil filled
          rw [push_closed closes, closeTag, names] at pushed
          refine .inr (.inl ⟨name, rfl, ?_⟩)
          rw [names]
          dsimp only [List.tail_cons] at pushed
          repeat' split at pushed
          all_goals cases pushed
          all_goals simp_all [← List.length_eq_zero_iff]
      | none =>
          cases ending : token.isEof with
          | true => cases (push_eof ending call).symm.trans pushed
          | false =>
              cases (push_other opened closes ending call).symm.trans pushed
              exact .inr (.inr ⟨rfl, rfl, rfl, by simp⟩)

theorem push_end (pushed : call.push token = .ok (last, true)) :
    last = call.withOpen [] ∧ call.openNames.tail = [] := by
  obtain ⟨name, kind⟩ := Compile.push_closes pushed
  rw [push_closed (Token.closed?_eq_some_iff.mpr kind), closeTag] at pushed
  dsimp only at pushed
  repeat' split at pushed
  all_goals cases pushed
  next only =>
    have none : call.openNames.tail = [] := List.length_eq_zero_iff.mp only
    rw [none]
    exact ⟨rfl, rfl⟩

theorem parent_of_collects (collects : Collects (start parent position) tokens call) :
    call.parent = parent ∧ call.position = position := by
  obtain ⟨opens, blocks, -, -, -, rfl⟩ := collects_start_iff.mp collects
  exact ⟨rfl, rfl⟩

end ParentCall

namespace Compile

open Token

variable {setting : Setting} {nested? : Option Nested} {body : Body}

/-- That the tokens behind an opening tag are kept for a parent call or a lambda, and not read for
what they are. -/
def Point.Withholds (q : Point setting nested? body) (name : String) : Prop :=
  q.token.token.kind = .tag .openParent name ∨
    q.token.token.kind = .tag .openSection name ∧ ∃ decl names,
      meaning setting body q.state name .openSection q.token.token.position =
        .ok (.lambda decl, names)

structure OpenTag.At (tag : OpenTag) (q : Point setting nested? body) : Prop where
  kind : q.token.token.kind = .tag tag.kind tag.name
  position : q.token.token.position = tag.position
  reads : ¬ q.Withholds tag.name

/-- Open constructs with their tags, innermost first, and the scope that they make of the one around
them. -/
inductive Standing (origin : Scope) :
    List OpenTag → Scope → List (Point setting nested? body) → Prop where
  | none : Standing origin [] origin []
  | some {tag : OpenTag} {outer : List OpenTag} {added : List Layer}
      {stack : List (Point setting nested? body)} {q : Point setting nested? body} :
      Standing origin outer tag.scope stack → tag.At q → tag.kind.Adds added →
      Standing origin (tag :: outer) (added ++ tag.scope) (q :: stack)

/-- That opening tags, innermost first, are those that some tokens leave open, each with so many of
them inside. -/
structure Awaits (read : List LineToken) (stack : List (Point setting nested? body)) : Prop where
  stillOpen : stillOpen (read.map LineToken.token) = stack.map fun q => q.token.token
  depth (i : Nat) {q : Point setting nested? body} : stack[i]? = some q →
    ∃ rest, read = q.passed ++ q.token :: rest ∧
      (rest.map LineToken.token).foldlM depthAfter? 0 = some i

/-- That the open constructs of a state are those of opening tags, and that the tokens behind one of
these are kept, if any are. -/
inductive Keeps (read : List LineToken) (s : State) (stack : List (Point setting nested? body)) :
    Prop where
  | normal : s.mode = .normal → Standing body.scope s.openTags s.scope stack → Keeps read s stack
  | parent {call : ParentCall} {indent : String} {inner outer : List (Point setting nested? body)}
      {q : Point setting nested? body} {rest : List LineToken} : s.mode = .parent call indent →
      Standing body.scope s.openTags s.scope outer → stack = inner ++ q :: outer →
      q.token.token.kind = .tag .openParent call.parent →
      q.token.token.position = call.position → inner.length + 1 = call.openNames.length →
      read = q.passed ++ q.token :: rest →
      ParentCall.Collects (.start call.parent call.position) (rest.map LineToken.token) call →
      Keeps read s stack
  | lambda {held : LambdaSection} {inner outer : List (Point setting nested? body)}
      {q : Point setting nested? body} : s.mode = .lambda held →
      Standing body.scope s.openTags s.scope outer → stack = inner ++ q :: outer →
      q.token.token.kind = .tag .openSection held.name →
      q.token.token.position = held.position → q.Withholds held.name →
      inner.length = held.depth → Keeps read s stack

variable {read : List LineToken} {s next : State} {t : LineToken} {events : List Event}
  {stack : List (Point setting nested? body)} {name : String}

theorem Standing.outer {origin scope : Scope} {tag : OpenTag} {outer : List OpenTag}
    (standing : Standing origin (tag :: outer) scope stack) :
    Standing origin outer tag.scope stack.tail := by
  cases standing with
  | some around _ _ => exact around

namespace Awaits

theorem nil : @Awaits setting nested? body [] [] :=
  ⟨rfl, fun i q found => by cases found⟩

theorem opened {p : Point setting nested? body} (awaits : Awaits p.passed stack)
    (opened : p.token.token.opened? = some name) : Awaits (p.passed ++ [p.token]) (p :: stack) := by
  constructor
  · rw [List.map_append, List.map_singleton, stillOpen_concat, around_opened opened,
      awaits.stillOpen]
    rfl
  · intro i q found
    cases i with
    | zero =>
        obtain rfl := Option.some.inj found
        exact ⟨[], rfl, rfl⟩
    | succ i =>
        obtain ⟨rest, split, inside⟩ := awaits.depth i found
        refine ⟨rest ++ [p.token], by simp [split], ?_⟩
        rw [List.map_append, List.foldlM_append, inside]
        simp [depthAfter?_of_opened opened]

theorem closed (awaits : Awaits read stack) (closes : t.token.closed? = some name) :
    Awaits (read ++ [t]) stack.tail := by
  constructor
  · rw [List.map_append, List.map_singleton, stillOpen_concat, around_closed closes,
      awaits.stillOpen, List.map_tail]
  · intro i q found
    rw [List.getElem?_tail] at found
    obtain ⟨rest, split, inside⟩ := awaits.depth (i + 1) found
    refine ⟨rest ++ [t], by simp [split], ?_⟩
    rw [List.map_append, List.foldlM_append, inside]
    simp [depthAfter?_of_closed closes]

theorem other (awaits : Awaits read stack) (noOpening : t.token.opened? = none)
    (noEnd : t.token.closed? = none) (inside : t.token.isEof = false) :
    Awaits (read ++ [t]) stack := by
  constructor
  · rw [List.map_append, List.map_singleton, stillOpen_concat, around_other noOpening noEnd,
      awaits.stillOpen]
  · intro i q found
    obtain ⟨rest, split, within⟩ := awaits.depth i found
    refine ⟨rest ++ [t], by simp [split], ?_⟩
    rw [List.map_append, List.foldlM_append, within]
    simp [depthAfter?_of_other noOpening noEnd inside]

end Awaits

def Leaves (setting : Setting) (nested? : Option Nested) (body : Body) (read : List LineToken)
    (s : State) : Prop :=
  ∃ stack : List (Point setting nested? body), Awaits read stack ∧ Keeps read s stack

section Normal

variable {p : Point setting nested? body} {kind : TagKind} (awaits : Awaits p.passed stack)
  (standing : Standing body.scope p.state.openTags p.state.scope stack)

include awaits standing

theorem Point.leaves_of_same (noOpening : p.token.token.opened? = none)
    (noEnd : p.token.token.closed? = none) (inside : p.token.token.isEof = false)
    (normal : next.mode = .normal) (scope : next.scope = p.state.scope)
    (openTags : next.openTags = p.state.openTags) :
    Leaves setting nested? body (p.passed ++ [p.token]) next := by
  refine ⟨stack, awaits.other noOpening noEnd inside, .normal normal ?_⟩
  rwa [openTags, scope]

theorem Point.leaves_openTag {guards : Nat} {inside : Scope} {added : List Layer}
    {names : FreshNames} (tag : p.token.token.kind = .tag kind name)
    (reads : ¬ p.Withholds name) (adds : kind.Adds added) (scope : inside = added ++ p.state.scope)
    (same : next = openTag { p.state with pendingIndent := none, names } kind name
      p.token.token.position guards inside) (normal : p.state.mode = .normal) :
    Leaves setting nested? body (p.passed ++ [p.token]) next := by
  have opened : p.token.token.opened? = some name := by
    rw [opened?, tag]
    exact if_pos adds.isOpening
  subst same scope
  exact ⟨p :: stack, awaits.opened opened, .normal normal (.some standing ⟨tag, rfl, reads⟩ adds)⟩

theorem Point.leaves_closeTag (tag : p.token.token.kind = .tag .close name)
    (normal : p.state.mode = .normal)
    (done : closeTag body { p.state with pendingIndent := none } name p.token.token.position =
      .ok (events, next)) : Leaves setting nested? body (p.passed ++ [p.token]) next := by
  have closes : p.token.token.closed? = some name := closed?_eq_some_iff.mpr tag
  unfold closeTag at done
  dsimp only at done
  split at done
  · cases done
  · next innermost outer open? =>
      split at done
      · cases done
      · cases done
        exact ⟨_, awaits.closed closes, .normal normal (open? ▸ standing).outer⟩

theorem Point.leaves_sectionTag (tag : p.token.token.kind = .tag .openSection name)
    (normal : p.state.mode = .normal)
    (done : sectionTag setting body { p.state with pendingIndent := none } name
      p.token.token.position = .ok (events, next)) :
    Leaves setting nested? body (p.passed ++ [p.token]) next := by
  obtain ⟨⟨found, names⟩, means, done⟩ := bind_eq_ok.mp done
  have resolved := meaning_ok means
  cases found with
  | openSection guards inside =>
      cases done
      obtain ⟨added, scope, adds⟩ := Scope.meaning_openSection_adds resolved
      refine Point.leaves_openTag awaits standing tag ?_ adds scope rfl normal
      rintro (other | ⟨-, decl, names, withheld⟩)
      · cases tag.symm.trans other
      · cases means.symm.trans withheld
  | lambda decl =>
      cases done
      have opened : p.token.token.opened? = some name := by rw [opened?, tag]; rfl
      exact ⟨p :: stack, awaits.opened opened,
        .lambda rfl standing (List.nil_append _).symm tag rfl (.inr ⟨tag, decl, names, means⟩) rfl⟩
  | value found | openInverted guard inside | enclosing inside =>
      obtain ⟨_, _, _, -, -, same⟩ | ⟨_, -, same, -⟩ := Scope.meaning_openSection resolved
      all_goals cases same

theorem Point.leaves_invertedTag (tag : p.token.token.kind = .tag .openInverted name)
    (normal : p.state.mode = .normal)
    (done : invertedTag setting body { p.state with pendingIndent := none } name
      p.token.token.position = .ok (events, next)) :
    Leaves setting nested? body (p.passed ++ [p.token]) next := by
  obtain ⟨⟨found, names⟩, means, done⟩ := bind_eq_ok.mp done
  obtain ⟨_, _, -, -, same⟩ := Scope.meaning_openInverted (meaning_ok means)
  subst same
  cases done
  refine Point.leaves_openTag awaits standing tag ?_ .inverted rfl rfl normal
  rintro (other | ⟨other, -⟩)
  all_goals cases tag.symm.trans other

theorem Point.leaves_plainTag (tag : p.token.token.kind = .tag kind name)
    (normal : p.state.mode = .normal)
    (done : plainTag setting none body p.state kind name p.token.token.position =
      .ok (events, next)) : Leaves setting nested? body (p.passed ++ [p.token]) next := by
  have inside : p.token.token.isEof = false := by rw [isEof, tag]
  have opens (isOpening : kind.isOpening = true) : p.token.token.opened? = some name := by
    rw [opened?, tag]
    exact if_pos isOpening
  have same (isOpening : kind.isOpening = false) (own : kind ≠ .close)
      (unchanged : next.mode = p.state.mode ∧ next.scope = p.state.scope ∧
        next.openTags = p.state.openTags) :
      Leaves setting nested? body (p.passed ++ [p.token]) next := by
    obtain ⟨mode, scope, openTags⟩ := unchanged
    have noOpening : p.token.token.opened? = none := by simp [opened?, tag, isOpening]
    have noEnd : p.token.token.closed? = none := by
      rw [Option.eq_none_iff_forall_ne_some]
      intro other closes
      cases (closed?_eq_some_iff.mp closes).symm.trans tag
      exact own rfl
    exact Point.leaves_of_same awaits standing noOpening noEnd inside (mode.trans normal) scope
      openTags
  unfold plainTag at done
  cases kind with
  | escaped | unescaped =>
      obtain ⟨⟨found, names⟩, -, done⟩ := bind_eq_ok.mp done
      cases found <;> cases done <;> exact same rfl (by decide) ⟨rfl, rfl, rfl⟩
  | inclusion => cases done
  | openSection => exact Point.leaves_sectionTag awaits standing tag normal done
  | openInverted => exact Point.leaves_invertedTag awaits standing tag normal done
  | close => exact Point.leaves_closeTag awaits standing tag normal done
  | openParent =>
      cases done
      exact ⟨p :: stack, awaits.opened (opens rfl),
        .parent rfl standing (List.nil_append _).symm tag rfl rfl rfl .nil⟩
  | openBlock =>
      cases done
      refine Point.leaves_openTag awaits standing tag ?_ .block rfl rfl normal
      rintro (other | ⟨other, -⟩)
      all_goals cases tag.symm.trans other

theorem Point.leaves_plain (role : p.token.token.tag?.isSome = true → p.token.role = .normal)
    (inside : p.token.token.isEof = false) (normal : p.state.mode = .normal)
    (done : readPlain setting none body p.state p.token = .ok (events, next)) :
    Leaves setting nested? body (p.passed ++ [p.token]) next := by
  have same (untagged : p.token.token.tag? = none)
      (unchanged : next.mode = p.state.mode ∧ next.scope = p.state.scope ∧
        next.openTags = p.state.openTags) :
      Leaves setting nested? body (p.passed ++ [p.token]) next := by
    obtain ⟨mode, scope, openTags⟩ := unchanged
    obtain ⟨noOpening, noEnd⟩ := opened?_of_untagged untagged
    exact Point.leaves_of_same awaits standing noOpening noEnd inside (mode.trans normal) scope
      openTags
  have unwritten (other : p.token.role ≠ .normal) : p.token.token.tag? = none :=
    Option.not_isSome_iff_eq_none.mp fun tag => other (role tag)
  unfold readPlain at done
  cases given : p.token.role with
  | ignore | indent | eof =>
      rw [given] at done
      cases done
      refine same (unwritten (by simp [given])) ?_
      first | exact ⟨rfl, rfl, rfl⟩ | (split <;> exact ⟨rfl, rfl, rfl⟩)
  | normal =>
      rw [given] at done
      cases kind : p.token.token.kind with
      | tag kind name =>
          simp only [kind] at done
          exact Point.leaves_plainTag awaits standing (by assumption) normal done
      | text _ | whitespace _ | special _ | newline _ | comment _ | delimiters _ _ | eof =>
          rw [kind] at done
          cases done
          exact same (by rw [tag?, kind]) ⟨rfl, rfl, rfl⟩

end Normal

section Withheld

variable {p q : Point setting nested? body} {inner outer : List (Point setting nested? body)}
  (awaits : Awaits p.passed (inner ++ q :: outer))
  (standing : Standing body.scope p.state.openTags p.state.scope outer)

include awaits standing

theorem Point.leaves_parent {call : ParentCall} {indent : String} {rest : List LineToken}
    (tag : q.token.token.kind = .tag .openParent call.parent)
    (place : q.token.token.position = call.position)
    (depth : inner.length + 1 = call.openNames.length)
    (split : p.passed = q.passed ++ q.token :: rest)
    (collects : ParentCall.Collects (.start call.parent call.position)
      (rest.map LineToken.token) call) (inside : p.token.token.isEof = false)
    (done : readParent setting none body p.state call indent p.token.token = .ok (events, next)) :
    Leaves setting nested? body (p.passed ++ [p.token]) next := by
  have filled : call.openNames ≠ [] := List.ne_nil_of_length_pos (by omega)
  unfold readParent at done
  split at done
  · cases done
  · next further taken =>
      cases done
      have collected := collects.append (.single taken)
      obtain ⟨parent, position⟩ := ParentCall.parent_of_collects collected
      have passed : p.passed ++ [p.token] = q.passed ++ q.token :: (rest ++ [p.token]) := by
        simp [split]
      have keeps (inside : List (Point setting nested? body))
          (deep : inside.length + 1 = further.openNames.length) :
          Keeps (p.passed ++ [p.token]) { p.state with mode := .parent further indent }
            (inside ++ q :: outer) := by
        refine .parent rfl standing rfl (parent.symm ▸ tag) (position.symm ▸ place) deep passed ?_
        rw [parent, position, List.map_append]
        exact collected
      obtain ⟨name, opened, -, deeper⟩ | ⟨name, closes, ends, shallower⟩ |
        ⟨noOpening, noEnd, -, same⟩ := ParentCall.push_depth taken filled
      · exact ⟨_, awaits.opened opened, keeps (p :: inner) (by simp; omega)⟩
      · have open? : further.openNames ≠ [] := fun none => by cases ends.mpr none
        have positive := List.length_pos_of_ne_nil open?
        obtain ⟨first, inner, rfl⟩ : ∃ first more, inner = first :: more :=
          List.exists_cons_of_length_pos (by omega)
        exact ⟨_, awaits.closed closes, keeps inner (by simp at depth; omega)⟩
      · exact ⟨_, awaits.other noOpening noEnd inside, keeps inner (by omega)⟩
  · cases done

theorem Point.leaves_lambda {held : LambdaSection} {closing standalone : Bool}
    (mode : p.state.mode = .lambda held) (tag : q.token.token.kind = .tag .openSection held.name)
    (place : q.token.token.position = held.position) (withholds : q.Withholds held.name)
    (depth : inner.length = held.depth)
    (role : p.token.token.tag?.isSome = true → p.token.role = .normal)
    (inside : p.token.token.isEof = false)
    (done : readLambda setting none body p.state held p.token closing standalone =
      .ok (events, next)) : Leaves setting nested? body (p.passed ++ [p.token]) next := by
  have keeps (within : List (Point setting nested? body)) {text : String} {deep : Nat}
      (same : within.length = deep) : Keeps (p.passed ++ [p.token])
        (p.state.reading (held.add text deep)) (within ++ q :: outer) :=
    .lambda rfl standing rfl tag place withholds same
  have unchanged : Keeps (p.passed ++ [p.token]) p.state (inner ++ q :: outer) :=
    .lambda mode standing rfl tag place withholds depth
  have other (noOpening : p.token.token.opened? = none) (noEnd : p.token.token.closed? = none)
      (done : (if closing then .ok ([], p.state)
        else .ok ([], p.state.reading (held.add p.token.token.raw held.depth)) : Outcome) =
          .ok (events, next)) :
      Leaves setting nested? body (p.passed ++ [p.token]) next := by
    split at done
    · cases done
      exact ⟨_, awaits.other noOpening noEnd inside, unchanged⟩
    · cases done
      exact ⟨_, awaits.other noOpening noEnd inside, keeps inner depth⟩
  unfold readLambda at done
  dsimp only at done
  split at done
  · next skipped =>
      cases done
      have untagged : p.token.token.tag? = none := Option.not_isSome_iff_eq_none.mp fun tag => by
        simp [role tag] at skipped
      obtain ⟨noOpening, noEnd⟩ := opened?_of_untagged untagged
      exact ⟨_, awaits.other noOpening noEnd inside, unchanged⟩
  · split at done
    · next name kind =>
        have closes : p.token.token.closed? = some name := closed?_eq_some_iff.mpr kind
        split at done
        · cases done
          obtain ⟨first, inner, rfl⟩ : ∃ first more, inner = first :: more :=
            List.exists_cons_of_length_pos (by omega)
          exact ⟨_, awaits.closed closes, keeps inner (by simp at depth; omega)⟩
        · split at done
          all_goals cases done
    · next kind name own tagged =>
        split at done
        · next opens =>
            cases done
            have opened : p.token.token.opened? = some name := by
              rw [opened?, tagged]
              exact if_pos opens
            exact ⟨_, awaits.opened opened, keeps (p :: inner) (by simp; omega)⟩
        · next opens =>
            refine other ?_ ?_ done
            · simp [opened?, tagged, opens]
            · rw [Option.eq_none_iff_forall_ne_some]
              intro found closes
              cases tagged.symm.trans (closed?_eq_some_iff.mp closes)
              exact own rfl
    · cases done
    · next untagged _ =>
        have none : p.token.token.tag? = .none := by
          rw [Option.eq_none_iff_forall_ne_some]
          rintro ⟨kind, name⟩ tag
          exact untagged kind name (kind_of_tag? tag)
        obtain ⟨noOpening, noEnd⟩ := opened?_of_untagged none
        exact other noOpening noEnd done

end Withheld

theorem Leaves.of_same (leaves : Leaves setting nested? body read s)
    (same : next.mode = s.mode ∧ next.scope = s.scope ∧ next.openTags = s.openTags) :
    Leaves setting nested? body read next := by
  obtain ⟨mode, scope, openTags⟩ := same
  obtain ⟨stack, awaits, keeps⟩ := leaves
  refine ⟨stack, awaits, ?_⟩
  cases keeps with
  | normal normal standing => exact .normal (mode.trans normal) (by rwa [scope, openTags])
  | parent other standing split tag place depth since collects =>
      exact .parent (mode.trans other) (by rwa [scope, openTags])
        split tag place depth since collects
  | lambda other standing split tag place withholds depth =>
      exact .lambda (mode.trans other) (by rwa [scope, openTags]) split tag place withholds depth

theorem callLambda_unchanged {held : LambdaSection} {standalone : Bool}
    (done : callLambda setting nested? body s held standalone = .ok (events, next)) :
    next.mode = s.mode ∧ next.scope = s.scope ∧ next.openTags = s.openTags := by
  cases nested? with
  | none => cases done
  | some nested =>
      rw [callLambda_eq] at done
      cases done
      unfold lambdaIndent
      split <;> exact ⟨rfl, rfl, rfl⟩

section

variable (p : Point setting nested? body) (leaves : Leaves setting nested? body p.passed p.state)

include leaves

theorem Point.leaves_answered {standalone : Bool} {request : Request} {answered : State}
    (asks : request? body standalone p.state p.token = some (request, answered)) :
    Leaves setting nested? body (p.passed ++ [p.token]) answered := by
  obtain ⟨stack, awaits, keeps⟩ := leaves
  unfold request? at asks
  cases keeps with
  | normal normal standing =>
      rw [normal] at asks
      dsimp only at asks
      split at asks
      · next name tag =>
          cases asks
          obtain ⟨-, kind⟩ := of_tag? tag
          refine Point.leaves_of_same awaits standing ?_ ?_ ?_ rfl rfl rfl
          · rw [opened?, kind]
            rfl
          · rw [closed?, kind]
          · rw [isEof, kind]
      · cases asks
  | @parent call indent inner outer q rest mode standing split tag place depth since collects =>
      rw [mode] at asks
      dsimp only at asks
      split at asks
      · next last taken =>
          cases asks
          obtain ⟨name, kind⟩ := push_closes taken
          obtain ⟨-, only⟩ := ParentCall.push_end taken
          have single : call.openNames.length - 1 = 0 := by
            rw [← List.length_tail, only, List.length_nil]
          obtain rfl : inner = [] := List.length_eq_zero_iff.mp (by omega)
          subst split
          exact ⟨outer, awaits.closed (closed?_eq_some_iff.mpr kind), .normal rfl standing⟩
      · cases asks
  | @lambda held inner outer q mode standing split tag place withholds depth =>
      rw [mode] at asks
      dsimp only at asks
      split at asks
      · cases asks
      · split at asks
        · next ends =>
            cases asks
            obtain ⟨kind, outermost⟩ := ends
            obtain rfl : inner = [] := List.length_eq_zero_iff.mp (depth.trans outermost)
            subst split
            exact ⟨outer, awaits.closed (closed?_eq_some_iff.mpr kind), .normal rfl standing⟩
        · cases asks

theorem Point.leaves_next (role : p.token.token.tag?.isSome = true → p.token.role = .normal)
    (inside : p.token.token.isEof = false) (done : p.outcome = .ok (events, next)) :
    Leaves setting nested? body (p.passed ++ [p.token]) next := by
  unfold outcome at done
  rw [readToken_eq] at done
  cases asks : request? body p.standalone p.state p.token with
  | some asked =>
      obtain ⟨request, answered⟩ := asked
      rw [asks] at done
      have behind := p.leaves_answered leaves asks
      cases request with
      | inclusion kind name position indent blocks =>
          have after := includeTemplate_state done
          dsimp only at after
          exact behind.of_same (by rw [after]; exact ⟨rfl, rfl, rfl⟩)
      | lambda held standalone => exact behind.of_same (callLambda_unchanged done)
  | none =>
      rw [asks] at done
      dsimp only [readToken] at done
      obtain ⟨stack, awaits, keeps⟩ := leaves
      cases keeps with
      | normal normal standing =>
          rw [normal] at done
          exact Point.leaves_plain awaits standing role inside normal done
      | parent mode standing split tag place depth since collects =>
          rw [mode] at done
          subst split
          exact Point.leaves_parent awaits standing tag place depth since collects inside done
      | lambda mode standing split tag place withholds depth =>
          rw [mode] at done
          subst split
          exact Point.leaves_lambda awaits standing mode tag place withholds depth role inside done

end

theorem Leaves.endGroup (leaves : Leaves setting nested? body read s) :
    Leaves setting nested? body read (endGroup s) := by
  obtain ⟨stack, awaits, keeps⟩ := leaves
  refine ⟨stack, awaits, ?_⟩
  unfold Compile.endGroup
  split
  · next held mode =>
      cases keeps with
      | normal normal _ => cases mode.symm.trans normal
      | parent other _ _ _ _ _ _ _ => cases mode.symm.trans other
      | lambda same standing split tag place withholds depth =>
          cases mode.symm.trans same
          exact .lambda rfl standing split tag place withholds depth
  · exact keeps

variable (collected : body.blocks.AreCollected)

include collected

theorem exists_groupsOf {lines : List LineGroup} (grouped : groups body = .ok lines) :
    ∃ source : List Token, tokenize body.stack.top.name body.source = .ok source ∧
      EndsOnce ((BlockReplacement.start body.blocks).replaceAll source) ∧
      lines = LineClassifier.groupsOf ((BlockReplacement.start body.blocks).replaceAll source) := by
  unfold groups at grouped
  split at grouped
  · cases grouped
  · next source read =>
      have ends := BlockReplacement.endsOnce_replaceAll (s := .start body.blocks) collected
        (endsOnce_of_tokenize read)
      exact ⟨source, read, ends, (Except.ok.inj grouped).symm⟩

theorem Point.endsOnce (p : Point setting nested? body) :
    EndsOnce ((p.passed ++ p.token :: (p.back ++ p.later.flatten)).map LineToken.token) ∧
      (p.token.token.tag?.isSome = true → p.token.role = .normal) := by
  obtain ⟨source, -, ends, same⟩ := exists_groupsOf collected p.grouped
  have whole : p.passed ++ p.token :: (p.back ++ p.later.flatten) =
      (LineClassifier.groupsOf
        ((BlockReplacement.start body.blocks).replaceAll source)).flatten := by
    rw [← same]
    simp [Point.passed]
  rw [whole, LineClassifier.map_token_groupsOf ends]
  refine ⟨ends, LineClassifier.role_of_tag ends ?_⟩
  rw [← whole]
  exact List.mem_append_right _ (List.mem_cons_self ..)

/-- In front of every token of a body the open constructs are those of the tags left open there. -/
theorem Point.leaves (p : Point setting nested? body) :
    Leaves setting nested? body p.passed p.state := by
  have kept : Invariant setting nested? body fun read s =>
      (∀ t ∈ read, t.token.isEof = false) → Leaves setting nested? body read s := by
    refine ⟨fun _ => ⟨[], .nil, .normal rfl .none⟩, ?_, fun leaves inside =>
      (leaves inside).endGroup⟩
    intro q events next leaves done inside
    obtain ⟨before, here⟩ := List.forall_mem_append.mp inside
    exact q.leaves_next (leaves before) (q.endsOnce collected).2
      (here q.token (List.mem_singleton_self _)) done
  refine kept.point p fun t member => ?_
  have ends := (p.endsOnce collected).1
  rw [List.map_append] at ends
  exact ends.isEof_of_mem (by simp) t.token (List.mem_map_of_mem member)

end Compile

end Stencil
