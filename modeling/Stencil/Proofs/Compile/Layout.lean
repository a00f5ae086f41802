import Stencil.Proofs.Compile.Included
import Stencil.Proofs.Render.Layout

/-!
Where the compiler puts the indentation of a template. Main statement: for a template in which
nothing is written where a line may or may not begin, what is compiled with indentation is what is
compiled without it, with the indentation put in at the starts of lines.
-/

namespace Stencil

def LineToken.writes (t : LineToken) : Bool :=
  t.role = .normal &&
    match t.token.kind with
    | .text _ | .whitespace _ | .special _ | .tag .escaped _ | .tag .unescaped _ => true
    | _ => false

def Layout.close? (before : Layout) (kind : TagKind) (after : Layout) : Option Layout :=
  match kind with
  | .openBlock => some after
  | .openInverted => some (before.join after)
  | _ => if before.join after = before then some before else none

theorem Layout.atLineStart_of_close? {kind : TagKind} {before after closed : Layout}
    (done : before.close? kind after = some closed) : closed.atLineStart = after.atLineStart := by
  unfold close? at done
  split at done
  · rw [Option.some.inj done]
  · rw [← Option.some.inj done]
    rfl
  · obtain ⟨same, kept⟩ := Option.ite_none_right_eq_some.mp done
    obtain rfl := Option.some.inj kept
    have start : (before.join after).atLineStart = before.atLineStart := by rw [same]
    exact start.symm

/-- Where the output of a template has got to, and where it was at each of the open tags, innermost
first. -/
structure Outline where
  layout : Layout
  outer : List (TagKind × Layout)
  deriving DecidableEq, Repr

namespace Outline

def start : Outline := ⟨.start, []⟩

/-- Goes on by one token, unless it writes something where a line may or may not begin. -/
def read (o : Outline) (t : LineToken) : Option Outline :=
  if t.writes then
    if o.layout.doubtful then none else some { o with layout := .middle }
  else
    match t.role, t.token.kind with
    | .normal, .newline _ => some { o with layout := .start }
    | .ignore, .newline _ => some { o with layout := o.layout.join .start }
    | .normal, .tag .close _ =>
        match o.outer with
        | [] => none
        | (kind, before) :: outer => (before.close? kind o.layout).map fun layout => ⟨layout, outer⟩
    | .normal, .tag kind _ =>
        if kind.isIndented then none else some { o with outer := (kind, o.layout) :: o.outer }
    | _, _ => some o

variable {o after : Outline} {t : LineToken}

theorem read_of_writes (writes : t.writes = true) (goes : o.read t = some after) :
    ∃ line, o.layout = ⟨line, false⟩ ∧ after = { o with layout := .middle } := by
  obtain ⟨⟨line, doubtful⟩, outer⟩ := o
  rw [read, if_pos writes] at goes
  cases doubtful with
  | true => cases goes
  | false => exact ⟨line, rfl, (Option.some.inj goes).symm⟩

theorem read_of_not_writes (silent : t.writes = false) :
    o.read t = match t.role, t.token.kind with
      | .normal, .newline _ => some { o with layout := .start }
      | .ignore, .newline _ => some { o with layout := o.layout.join .start }
      | .normal, .tag .close _ =>
          match o.outer with
          | [] => none
          | (kind, before) :: outer =>
              (before.close? kind o.layout).map fun layout => ⟨layout, outer⟩
      | .normal, .tag kind _ =>
          if kind.isIndented then none else some { o with outer := (kind, o.layout) :: o.outer }
      | _, _ => some o := by
  rw [read, silent]
  rfl

end Outline

/-- That nothing in a template is written where a line may or may not begin, depending on what its
sections come to. -/
def Template.isSteady (template : Template) : Bool :=
  match tokenize template.name template.source with
  | .error _ => false
  | .ok tokens => ((LineClassifier.groupsOf tokens).flatten.foldlM Outline.read .start).isSome

namespace Compile

variable {setting : Setting} {nested? : Option Nested} {body : Body} {s next : State}
  {t : LineToken} {indent : String} {events others more otherMore inner otherInner : List Event}
  {layout before after last : Layout}

def Lays (indent : String) (before : Layout) (events others : List Event) (after : Layout) : Prop :=
  ∃ body other, Laid indent before body other after ∧ Spells events body ∧ Spells others other

namespace Lays

theorem nil : Lays indent layout [] [] layout := ⟨[], [], .nil, .nil, .nil⟩

theorem append (front : Lays indent before events others layout)
    (back : Lays indent layout more otherMore after) :
    Lays indent before (events ++ more) (others ++ otherMore) after := by
  obtain ⟨body, other, laid, spells, otherSpells⟩ := front
  obtain ⟨rest, otherRest, laidRest, spellsRest, otherSpellsRest⟩ := back
  exact ⟨_, _, laid.append laidRest, spells.append spellsRest, otherSpells.append otherSpellsRest⟩

theorem wider (wide : ∀ atStart, layout.Allows atStart → after.Allows atStart) :
    Lays indent layout [] [] after := ⟨[], [], .wider wide .nil, .nil, .nil⟩

end Lays

theorem laid_nest {instructions other : List Instruction} (guards : List Guard)
    (laid : Laid indent layout instructions other layout) :
    Laid indent layout (nest guards instructions) (nest guards other) layout := by
  induction guards with
  | nil => exact laid
  | cons guard guards ih => exact .conditional guard ih .nil

theorem Opens.lays {schema : Schema} {scope inside : Scope} {names : FreshNames} {tag : OpenTag}
    {enter : List Event} (opens : Opens schema scope names t tag enter inside)
    (lays : Lays indent before inner otherInner layout)
    (closed : before.close? tag.kind layout = some after) :
    Lays indent before (enter ++ (inner ++ tag.leave)) (enter ++ (otherInner ++ tag.leave))
      after := by
  obtain ⟨body, other, laid, spells, otherSpells⟩ := lays
  cases opens with
  | openSection opening found =>
      obtain ⟨same, kept⟩ := Option.ite_none_right_eq_some.mp closed
      obtain rfl := Option.some.inj kept
      have back := laid.widen fun _ => Layout.allows_of_join_eq same
      exact ⟨_, _, laid_nest _ back, spells_nest _ spells, spells_nest _ otherSpells⟩
  | @openInverted name position guard inside after opening found =>
      obtain rfl := Option.some.inj closed
      have either : Laid indent before body other (before.join layout) :=
        laid.widen fun _ => Layout.allows_join_right
      exact ⟨_, _, .inverted guard either (fun _ => Layout.allows_join_left) .nil,
        Spells.enclose (.inverted guard) spells, Spells.enclose (.inverted guard) otherSpells⟩
  | @openBlock name position opening =>
      obtain rfl := Option.some.inj closed
      exact ⟨_, _, .block name laid .nil, Spells.enclose (.block name) spells,
        Spells.enclose (.block name) otherSpells⟩

/-- What a template has become part way through, with and without indentation, below the
open tags. -/
inductive Sketch (schema : Schema) (indent : String) :
    Outline → List OpenTag → List Event → List Event → Prop where
  | outermost {layout : Layout} {events others : List Event} :
      Lays indent .start events others layout →
      Sketch schema indent ⟨layout, []⟩ [] events others
  | inside {layout before : Layout} {outer : List (TagKind × Layout)} {openTags : List OpenTag}
      {tag : OpenTag} {t : LineToken} {scope inside : Scope} {names : FreshNames}
      {events others enter inner otherInner : List Event} :
      Sketch schema indent ⟨before, outer⟩ openTags events others →
      Opens schema scope names t tag enter inside →
      Lays indent before inner otherInner layout →
      Sketch schema indent ⟨layout, (tag.kind, before) :: outer⟩ (tag :: openTags)
        (events ++ (enter ++ inner)) (others ++ (enter ++ otherInner))

namespace Sketch

variable {schema : Schema} {outer : List (TagKind × Layout)} {openTags : List OpenTag}
  {tag : OpenTag} {kind : TagKind}

theorem extend (sketch : Sketch schema indent ⟨layout, outer⟩ openTags events others)
    (lays : Lays indent layout more otherMore after) :
    Sketch schema indent ⟨after, outer⟩ openTags (events ++ more) (others ++ otherMore) := by
  cases sketch with
  | outermost earlier => exact .outermost (earlier.append lays)
  | inside around opens earlier =>
      simp only [List.append_assoc]
      exact .inside around opens (earlier.append lays)

theorem close (sketch : Sketch schema indent ⟨layout, (kind, before) :: outer⟩ (tag :: openTags)
      events others) (closed : before.close? kind layout = some after) :
    Sketch schema indent ⟨after, outer⟩ openTags (events ++ tag.leave) (others ++ tag.leave) := by
  cases sketch with
  | inside around opens lays =>
      simp only [List.append_assoc]
      exact around.extend (opens.lays lays closed)

end Sketch

def indentation (indent : String) (s : State) (t : LineToken) : List Event :=
  if t.writes && s.atLineStart && !indent.isEmpty then [.call (.literal indent)] else []

theorem writeText_indented (plain : body.indent = "") (writes : t.writes = true) (s : State)
    (text : String) : writeText { body with indent } s text =
      (indentation indent s t ++ (writeText body s text).1, (writeText body s text).2) := by
  simp [writeText, indentLine, indentation, plain, writes]

theorem variableTag_indented {name : String} {purpose : NameUse} {escaping : Escaping}
    {position : Position} (plain : body.indent = "") (writes : t.writes = true)
    (written : purpose = .escaped ∨ purpose = .unescaped) :
    variableTag setting { body with indent } s name purpose escaping position =
      (variableTag setting body s name purpose escaping position).map fun (events, next) =>
        (indentation indent s t ++ events, next) := by
  have same : meaning setting { body with indent } s name purpose position =
      meaning setting body s name purpose position := rfl
  unfold variableTag
  rw [same]
  cases found : meaning setting body s name purpose position with
  | error problem => rfl
  | ok result =>
      obtain ⟨value, -, -, means, -⟩ := Scope.meaning_variable written (meaning_ok found)
      simp [means, indentLine, indentation, plain, writes, Except.map]

theorem readPlain_indented {o following : Outline} (plain : body.indent = "")
    (goes : o.read t = some following) :
    readPlain setting nested? { body with indent } s t =
      (readPlain setting nested? body s t).map fun (events, next) =>
        (indentation indent s t ++ events, next) := by
  unfold readPlain
  cases role : t.role with
  | ignore | indent | eof =>
      have silent : indentation indent s t = [] := by simp [indentation, LineToken.writes, role]
      simp only [silent, List.nil_append]
      rfl
  | normal =>
      cases kind : t.token.kind with
      | text text | whitespace text | special mark =>
          have writes : t.writes = true := by simp [LineToken.writes, role, kind]
          exact congrArg Except.ok (writeText_indented plain writes s _)
      | newline _ | comment _ | delimiters _ _ | eof =>
          have silent : indentation indent s t = [] := by
            simp [indentation, LineToken.writes, role, kind]
          simp only [silent, List.nil_append]
          rfl
      | tag tagKind name =>
          cases tagKind with
          | escaped =>
              have writes : t.writes = true := by simp [LineToken.writes, role, kind]
              exact variableTag_indented plain writes (.inl rfl)
          | unescaped =>
              have writes : t.writes = true := by simp [LineToken.writes, role, kind]
              exact variableTag_indented plain writes (.inr rfl)
          | openSection | openInverted | openBlock | close =>
              have silent : indentation indent s t = [] := by
                simp [indentation, LineToken.writes, role, kind]
              simp only [silent, List.nil_append]
              exact (congrFun Except.map_id _).symm
          | inclusion | openParent =>
              have silent : t.writes = false := by simp [LineToken.writes, role, kind]
              rw [Outline.read_of_not_writes silent, role, kind] at goes
              cases goes

structure Tracks (schema : Schema) (indent : String) (o : Outline) (s : State)
    (events others : List Event) : Prop where
  sketch : Sketch schema indent o s.openTags events others
  atLineStart : o.layout.atLineStart = s.atLineStart
  normal : s.mode = .normal

namespace Tracks

variable {schema : Schema} {outer : List (TagKind × Layout)} {instruction : Instruction}

theorem extend (tracks : Tracks schema indent ⟨layout, outer⟩ s events others)
    (lays : Lays indent layout more otherMore after) (openTags : next.openTags = s.openTags)
    (atLineStart : after.atLineStart = next.atLineStart) (normal : next.mode = .normal) :
    Tracks schema indent ⟨after, outer⟩ next (events ++ more) (others ++ otherMore) :=
  ⟨openTags ▸ tracks.sketch.extend lays, atLineStart, normal⟩

theorem silent {o : Outline} (tracks : Tracks schema indent o s events others)
    (openTags : next.openTags = s.openTags) (atLineStart : next.atLineStart = s.atLineStart)
    (normal : next.mode = .normal) : Tracks schema indent o next (events ++ []) (others ++ []) :=
  tracks.extend .nil openTags (tracks.atLineStart.trans atLineStart.symm) normal

theorem write {line : Bool} {call : Call}
    (tracks : Tracks schema indent ⟨⟨line, false⟩, outer⟩ s events others)
    (writes : t.writes = true) (inline : instruction.isInline)
    (spells : Spells [.call call] [instruction]) (openTags : next.openTags = s.openTags)
    (atLineStart : next.atLineStart = false) (normal : next.mode = .normal) :
    Tracks schema indent ⟨.middle, outer⟩ next (events ++ [.call call])
      (others ++ (indentation indent s t ++ [.call call])) := by
  refine tracks.extend ?_ openTags atLineStart.symm normal
  refine ⟨_, _, .write inline .nil, spells, .append ?_ spells⟩
  have start : line = s.atLineStart := tracks.atLineStart
  rw [start, indentation, writes, Bool.true_and, Layout.indentation]
  split
  · exact .one_literal indent
  · exact .nil

theorem opens {layout : Layout} {t : LineToken} {tag : OpenTag} {scope inside : Scope}
    {names : FreshNames} {enter : List Event}
    (tracks : Tracks schema indent ⟨layout, outer⟩ s events others)
    (opens : Opens schema scope names t tag enter inside)
    (openTags : next.openTags = tag :: s.openTags)
    (atLineStart : next.atLineStart = s.atLineStart) (normal : next.mode = .normal) :
    Tracks schema indent ⟨layout, (tag.kind, layout) :: outer⟩ next (events ++ enter)
      (others ++ enter) := by
  obtain ⟨sketch, start, -⟩ := tracks
  refine ⟨?_, start.trans atLineStart.symm, normal⟩
  have opened := Sketch.inside sketch opens .nil
  rw [List.append_nil] at opened
  exact openTags ▸ opened

end Tracks

theorem indentLine_of_plain (plain : body.indent = "") (s : State) :
    indentLine body s = ([], { s with atLineStart := false }) := by
  simp [indentLine, plain]

theorem indentation_of_not_writes (silent : t.writes = false) : indentation indent s t = [] := by
  simp [indentation, silent]

section

variable {o following : Outline} {schema : Schema}

theorem writeText_tracks {line : Bool} {outer : List (TagKind × Layout)} {text : String}
    (plain : body.indent = "")
    (tracks : Tracks schema indent ⟨⟨line, false⟩, outer⟩ s events others)
    (writes : t.writes = true) (inline : '\n' ∉ text.toList)
    (done : writeText body s text = (more, next)) :
    Tracks schema indent ⟨.middle, outer⟩ next (events ++ more)
      (others ++ (indentation indent s t ++ more)) := by
  rw [writeText, indentLine_of_plain plain, Prod.mk.injEq] at done
  obtain ⟨rfl, rfl⟩ := done
  have within : Instruction.isInline (.literal text) := inline
  exact tracks.write writes within (.one_literal text) rfl rfl tracks.normal

theorem variableTag_tracks {line : Bool} {outer : List (TagKind × Layout)} {name : String}
    {purpose : NameUse} {escaping : Escaping} {position : Position} (plain : body.indent = "")
    (tracks : Tracks schema indent ⟨⟨line, false⟩, outer⟩ s events others)
    (writes : t.writes = true) (written : purpose = .escaped ∨ purpose = .unescaped)
    (done : variableTag setting body s name purpose escaping position = .ok (more, next)) :
    Tracks schema indent ⟨.middle, outer⟩ next (events ++ more)
      (others ++ (indentation indent s t ++ more)) := by
  obtain ⟨⟨result, names⟩, found, done⟩ := bind_eq_ok.mp done
  obtain ⟨value, -, -, rfl, rfl⟩ := Scope.meaning_variable written (meaning_ok found)
  simp only [indentLine_of_plain plain, List.nil_append, pure_eq_ok, Except.ok.injEq,
    Prod.mk.injEq] at done
  obtain ⟨rfl, rfl⟩ := done
  have within : Instruction.isInline (.value value.expr escaping) := trivial
  exact tracks.write writes within (.value _ _ .nil) rfl rfl tracks.normal

theorem readPlain_tracks_write (plain : body.indent = "") (inline : t.token.kind.IsInline)
    (writes : t.writes = true) (tracks : Tracks schema indent o s events others)
    (goes : o.read t = some following)
    (done : readPlain setting nested? body s t = .ok (more, next)) :
    Tracks schema indent following next (events ++ more)
      (others ++ (indentation indent s t ++ more)) := by
  obtain ⟨line, certain, rfl⟩ := Outline.read_of_writes writes goes
  obtain ⟨layout, outer⟩ := o
  obtain rfl : layout = ⟨line, false⟩ := certain
  obtain ⟨normal, kinds⟩ := Bool.and_eq_true_iff.mp writes
  unfold readPlain at done
  rw [of_decide_eq_true normal] at done
  cases kind : t.token.kind with
  | text content | whitespace content =>
      rw [kind] at done
      exact writeText_tracks plain tracks writes (inline content (by simp [kind]))
        (Except.ok.inj done)
  | special mark =>
      rw [kind] at done
      have within : '\n' ∉ mark.text.toList := by cases mark <;> decide
      exact writeText_tracks plain tracks writes within (Except.ok.inj done)
  | tag tagKind name =>
      rw [kind] at done
      have unindented : Tracks schema indent ⟨⟨line, false⟩, outer⟩ { s with pendingIndent := none }
          events others := ⟨tracks.sketch, tracks.atLineStart, tracks.normal⟩
      have whole : Tracks schema indent ⟨.middle, outer⟩ next (events ++ more)
          (others ++ (indentation indent { s with pendingIndent := none } t ++ more)) := by
        cases tagKind with
        | escaped => exact variableTag_tracks plain unindented writes (.inl rfl) done
        | unescaped => exact variableTag_tracks plain unindented writes (.inr rfl) done
        | _ => simp [kind] at kinds
      exact whole
  | _ => simp [kind] at kinds

theorem plainTag_tracks {outer : List (TagKind × Layout)} {kind : TagKind} {name : String}
    {position : Position} (noLambdas : setting.schema.lambdas = [])
    (tag : t.tag? = some (kind, name)) (paired : kind.isPaired = true)
    (tracks : Tracks setting.schema indent ⟨layout, outer⟩ s events others)
    (done : plainTag setting nested? body s kind name position = .ok (more, next)) :
    Tracks setting.schema indent ⟨layout, (kind, layout) :: outer⟩ next (events ++ more)
      (others ++ more) := by
  have unindented : Tracks setting.schema indent ⟨layout, outer⟩ { s with pendingIndent := none }
      events others := ⟨tracks.sketch, tracks.atLineStart, tracks.normal⟩
  unfold plainTag at done
  cases kind with
  | openSection =>
      obtain ⟨⟨result, names⟩, found, done⟩ := bind_eq_ok.mp done
      have means := meaning_ok found
      obtain ⟨value, guards, inside, -, -, rfl⟩ | ⟨decl, declared, -⟩ :=
        Scope.meaning_openSection means
      · cases done
        exact unindented.opens (.openSection tag means) rfl rfl tracks.normal
      · rw [noLambdas] at declared
        cases declared
  | openInverted =>
      obtain ⟨⟨result, names⟩, found, done⟩ := bind_eq_ok.mp done
      have means := meaning_ok found
      obtain ⟨value, guard, -, -, rfl⟩ := Scope.meaning_openInverted means
      cases done
      exact unindented.opens (.openInverted tag means) rfl rfl tracks.normal
  | openBlock =>
      cases done
      exact unindented.opens (.openBlock tag) rfl rfl tracks.normal
  | _ => cases paired

theorem closeTag_tracks {name : String} {position : Position} {kind : TagKind} {before : Layout}
    {outer : List (TagKind × Layout)}
    (tracks : Tracks schema indent ⟨layout, (kind, before) :: outer⟩ s events others)
    (closed : before.close? kind layout = some after)
    (done : closeTag body s name position = .ok (more, next)) :
    Tracks schema indent ⟨after, outer⟩ next (events ++ more) (others ++ more) := by
  obtain ⟨sketch, start, normal⟩ := tracks
  have kept : after.atLineStart = layout.atLineStart := Layout.atLineStart_of_close? closed
  unfold closeTag at done
  split at done
  · cases done
  · next tag openTags opened =>
      split at done
      · cases done
      · cases done
        rw [opened] at sketch
        exact ⟨sketch.close closed, kept.trans start, normal⟩

theorem readPlain_tracks_silent (noLambdas : setting.schema.lambdas = [])
    (silent : t.writes = false) (tracks : Tracks setting.schema indent o s events others)
    (goes : o.read t = some following)
    (done : readPlain setting nested? body s t = .ok (more, next)) :
    Tracks setting.schema indent following next (events ++ more) (others ++ more) := by
  obtain ⟨layout, outer⟩ := o
  rw [Outline.read_of_not_writes silent] at goes
  unfold readPlain at done
  cases role : t.role with
  | ignore =>
      rw [role] at done goes
      cases done
      cases kind : t.token.kind with
      | newline ending =>
          rw [kind] at goes
          obtain rfl := Option.some.inj goes
          have ends : t.token.isNewline = true := by simp [Token.isNewline, kind]
          rw [if_pos ends]
          exact tracks.extend (.wider fun _ => Layout.allows_join_left) rfl rfl tracks.normal
      | _ =>
          rw [kind] at goes
          obtain rfl := Option.some.inj goes
          have inside : t.token.isNewline = false := by simp [Token.isNewline, kind]
          rw [inside]
          exact tracks.silent rfl rfl tracks.normal
  | indent =>
      rw [role] at done goes
      obtain rfl := Option.some.inj goes
      cases done
      split
      · exact tracks.silent rfl rfl tracks.normal
      · exact tracks.silent rfl rfl tracks.normal
  | eof =>
      rw [role] at done goes
      obtain rfl := Option.some.inj goes
      cases done
      exact tracks.silent rfl rfl tracks.normal
  | normal =>
      rw [role] at done goes
      cases kind : t.token.kind with
      | newline ending =>
          rw [kind] at done goes
          obtain rfl := Option.some.inj goes
          cases done
          have ended : Lays indent layout [.call (.literal ending.text)]
              [.call (.literal ending.text)] .start :=
            ⟨_, _, .newline ending .nil, .one_literal _, .one_literal _⟩
          exact tracks.extend ended rfl rfl tracks.normal
      | tag tagKind name =>
          rw [kind] at done goes
          have tag : t.tag? = some (tagKind, name) := by
            simp [LineToken.tag?, Token.tag?, role, kind]
          have unindented : Tracks setting.schema indent ⟨layout, outer⟩
              { s with pendingIndent := none } events others :=
            ⟨tracks.sketch, tracks.atLineStart, tracks.normal⟩
          cases tagKind with
          | openSection | openInverted | openBlock =>
              obtain rfl := Option.some.inj goes
              exact plainTag_tracks noLambdas tag rfl tracks done
          | close =>
              cases outer with
              | nil => cases goes
              | cons first outer =>
                  obtain ⟨after, closed, rfl⟩ := Option.map_eq_some_iff.mp goes
                  exact closeTag_tracks unindented closed done
          | inclusion | openParent => cases goes
          | escaped | unescaped => simp [LineToken.writes, role, kind] at silent
      | comment _ | delimiters _ _ | eof =>
          rw [kind] at done goes
          obtain rfl := Option.some.inj goes
          cases done
          exact tracks.silent rfl rfl tracks.normal
      | _ => simp [LineToken.writes, role, kind] at silent

theorem readPlain_tracks (noLambdas : setting.schema.lambdas = []) (plain : body.indent = "")
    (inline : t.token.kind.IsInline) (tracks : Tracks setting.schema indent o s events others)
    (goes : o.read t = some following)
    (done : readPlain setting nested? body s t = .ok (more, next)) :
    Tracks setting.schema indent following next (events ++ more)
      (others ++ (indentation indent s t ++ more)) := by
  cases writes : t.writes with
  | true => exact readPlain_tracks_write plain inline writes tracks goes done
  | false =>
      rw [indentation_of_not_writes writes]
      exact readPlain_tracks_silent noLambdas writes tracks goes done

theorem runAll_tracks {tokens : List LineToken} (noLambdas : setting.schema.lambdas = [])
    (plain : body.indent = "") (inline : ∀ t ∈ tokens, t.token.kind.IsInline)
    (tracks : Tracks setting.schema indent o s events others)
    (goes : tokens.foldlM Outline.read o = some following)
    (done : runAll (readToken setting nested? body false false) s tokens = .ok (more, next)) :
    ∃ otherMore,
      runAll (readToken setting nested? { body with indent } false false) s tokens =
        .ok (otherMore, next) ∧
      Tracks setting.schema indent following next (events ++ more) (others ++ otherMore) := by
  induction tokens generalizing o s events others more with
  | nil =>
      cases done
      obtain rfl := Option.some.inj goes
      exact ⟨[], rfl, tracks.silent rfl rfl tracks.normal⟩
  | cons t tokens ih =>
      obtain ⟨here, further⟩ := List.forall_mem_cons.mp inline
      obtain ⟨between, first, goes⟩ := Option.bind_eq_some_iff.mp goes
      obtain ⟨⟨written, middle⟩, head, done⟩ := bind_eq_ok.mp done
      obtain ⟨⟨later, last⟩, tail, done⟩ := bind_eq_ok.mp done
      cases done
      simp only [readToken, tracks.normal] at head
      obtain ⟨otherLater, run, after⟩ :=
        ih further (readPlain_tracks noLambdas plain here tracks first head) goes tail
      refine ⟨indentation indent s t ++ written ++ otherLater, ?_, ?_⟩
      · have indented : readPlain setting nested? { body with indent } s t =
            .ok (indentation indent s t ++ written, middle) := by
          rw [readPlain_indented plain first, head]
          rfl
        rw [runAll, readToken, tracks.normal]
        dsimp only
        rw [indented, ok_bind]
        dsimp only
        rw [run]
        rfl
      · simpa only [List.append_assoc] using after

end

theorem compileWith_indented (noLambdas : setting.schema.lambdas = []) (plain : body.indent = "")
    (noBlocks : body.blocks = []) (starts : body.atLineStart = true)
    (steady : Template.isSteady ⟨body.stack.top.name, body.source⟩ = true) {atLineStart : Bool}
    (done : compileWith setting nested? body = .ok (events, atLineStart)) (indent : String) :
    ∃ others layout, compileWith setting nested? { body with indent } = .ok (others, atLineStart) ∧
      Lays indent .start events others layout := by
  obtain ⟨lines, grouped, done⟩ := bind_eq_ok.mp done
  obtain ⟨⟨written, last⟩, run, done⟩ := bind_eq_ok.mp done
  obtain ⟨_, closed, done⟩ := bind_eq_ok.mp done
  cases done
  obtain ⟨tokens, read, rfl⟩ := groups_without noBlocks grouped
  simp only [Template.isSteady, read] at steady
  obtain ⟨outline, goes⟩ := Option.isSome_iff_exists.mp steady
  have inline : ∀ t ∈ (LineClassifier.groupsOf tokens).flatten, t.token.kind.IsInline := by
    intro t member
    exact isInline_of_tokenize read t.token (LineClassifier.token_mem_of_mem_groupsOf member)
  have started : Tracks setting.schema indent .start (State.start body) [] [] :=
    ⟨.outermost .nil, starts.symm, rfl⟩
  rw [runAll_readGroup noLambdas _ rfl] at run
  obtain ⟨others, otherRun, sketch, -, normal⟩ :=
    runAll_tracks noLambdas plain inline started goes run
  have closedTags : last.openTags = [] := by
    unfold checkClosed at closed
    rw [normal] at closed
    split at closed
    · cases closed
    · cases closed
    · cases closed
    · assumption
  have otherClosed : checkClosed { body with indent } last = .ok () := by
    rw [checkClosed, normal, closedTags]
  have otherGrouped : groups { body with indent } = .ok (LineClassifier.groupsOf tokens) := grouped
  rw [closedTags] at sketch
  cases sketch with
  | @outermost layout _ _ lays =>
      refine ⟨others, layout, ?_, lays⟩
      have otherStarted : State.start { body with indent } = State.start body := rfl
      rw [compileWith, otherGrouped, ok_bind, runAll_readGroup noLambdas _ rfl, otherStarted,
        otherRun, ok_bind]
      dsimp only
      rw [otherClosed]
      rfl

end Compile

end Stencil
