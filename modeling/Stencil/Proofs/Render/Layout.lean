import Stencil.Proofs.Render.Joined
import Stencil.Proofs.Text.Indentation

/-!
Instructions with and without indentation. Main statement: where the places that the indentation was
put at are line starts in every run, the output is indented line by line.
-/

namespace Stencil

/-- Where the output of a template has got to: whether it is taken to be at the start of a line, and
whether that may be wrong. -/
structure Layout where
  atLineStart : Bool
  doubtful : Bool
  deriving DecidableEq, Repr

namespace Layout

def start : Layout := ⟨true, false⟩

def middle : Layout := ⟨false, false⟩

def Allows (layout : Layout) (atStart : Bool) : Prop :=
  atStart = layout.atLineStart ∨ layout.doubtful = true

def join (before after : Layout) : Layout :=
  ⟨after.atLineStart,
    before.doubtful || after.doubtful || before.atLineStart != after.atLineStart⟩

variable {before after : Layout} {atStart : Bool}

theorem allows_join_left (allows : before.Allows atStart) : (before.join after).Allows atStart := by
  unfold Allows join at *
  grind

theorem allows_join_right (allows : after.Allows atStart) : (before.join after).Allows atStart := by
  unfold Allows join at *
  grind

theorem allows_of_join_eq (same : before.join after = before) (allows : after.Allows atStart) :
    before.Allows atStart := same ▸ allows_join_right allows

theorem eq_of_allows {line : Bool} (allows : Allows ⟨line, false⟩ atStart) : atStart = line := by
  simpa [Allows] using allows

end Layout

def Instruction.isInline : Instruction → Prop
  | .literal text => '\n' ∉ text.toList
  | .value _ _ => True
  | _ => False

def Layout.indentation (indent : String) (atLineStart : Bool) : List Instruction :=
  if atLineStart && !indent.isEmpty then [.literal indent] else []

/-- Instructions, and the same with the indentation put in at what is taken for the start of a line.
The layouts are those before and after them. -/
inductive Laid (indent : String) : Layout → List Instruction → List Instruction → Layout →
    Prop where
  | nil {layout : Layout} : Laid indent layout [] [] layout
  | wider {layout wide last : Layout} {body other : List Instruction} :
      (∀ atStart, layout.Allows atStart → wide.Allows atStart) →
      Laid indent wide body other last → Laid indent layout body other last
  | write {atLineStart : Bool} {last : Layout} {instruction : Instruction}
      {more otherMore : List Instruction} : instruction.isInline →
      Laid indent .middle more otherMore last →
      Laid indent ⟨atLineStart, false⟩ (instruction :: more)
        (Layout.indentation indent atLineStart ++ instruction :: otherMore) last
  | newline {layout last : Layout} {more otherMore : List Instruction} (ending : LineEnding) :
      Laid indent .start more otherMore last →
      Laid indent layout (.literal ending.text :: more) (.literal ending.text :: otherMore) last
  | conditional {layout last : Layout} {body other more otherMore : List Instruction}
      (guard : Guard) : Laid indent layout body other layout →
      Laid indent layout more otherMore last →
      Laid indent layout (.conditional guard body :: more) (.conditional guard other :: otherMore)
        last
  | inverted {layout after last : Layout} {body other more otherMore : List Instruction}
      (guard : Guard) : Laid indent layout body other after →
      (∀ atStart, layout.Allows atStart → after.Allows atStart) →
      Laid indent after more otherMore last →
      Laid indent layout (.inverted guard body :: more) (.inverted guard other :: otherMore) last
  | block {layout after last : Layout} {body other more otherMore : List Instruction}
      (name : String) : Laid indent layout body other after →
      Laid indent after more otherMore last →
      Laid indent layout (.block name body :: more) (.block name other :: otherMore) last

theorem Laid.append {indent : String} {layout middle last : Layout}
    {body other more otherMore : List Instruction} (front : Laid indent layout body other middle)
    (back : Laid indent middle more otherMore last) :
    Laid indent layout (body ++ more) (other ++ otherMore) last := by
  induction front with
  | nil => exact back
  | wider wide _ ih => exact .wider wide (ih back)
  | write inline _ ih =>
      rw [List.append_assoc]
      exact .write inline (ih back)
  | newline ending _ ih => exact .newline ending (ih back)
  | conditional guard inner _ _ ih => exact .conditional guard inner (ih back)
  | inverted guard inner wide _ _ ih => exact .inverted guard inner wide (ih back)
  | block name inner _ _ ih => exact .block name inner (ih back)

theorem Laid.widen {indent : String} {layout last wide : Layout} {body other : List Instruction}
    (laid : Laid indent layout body other last)
    (allows : ∀ atStart, last.Allows atStart → wide.Allows atStart) :
    Laid indent layout body other wide := by
  have ended := laid.append (.wider allows .nil)
  simpa only [List.append_nil] using ended

/-- The texts that a run writes for variables, those within lambdas apart. -/
inductive Renderer.WritesText (renderer : Renderer) : Bindings → List Instruction → String →
    Prop where
  | value {bindings : Bindings} {expr : Expr} {found : Value} (escaping : Escaping)
      {more : List Instruction} : bindings.eval expr = .ok found →
      WritesText renderer bindings (.value expr escaping :: more)
        (renderer.write found.text escaping)
  | conditional {bindings inner : Bindings} {guard : Guard} {body more : List Instruction}
      {steps : List Bindings} {text : String} : bindings.passes guard = .ok steps → inner ∈ steps →
      WritesText renderer inner body text →
      WritesText renderer bindings (.conditional guard body :: more) text
  | inverted {bindings : Bindings} {guard : Guard} {body more : List Instruction} {text : String} :
      bindings.passes guard = .ok [] → WritesText renderer bindings body text →
      WritesText renderer bindings (.inverted guard body :: more) text
  | inclusion {bindings : Bindings} (name : String) {body more : List Instruction} {text : String} :
      WritesText renderer bindings body text →
      WritesText renderer bindings (.inclusion name body :: more) text
  | block {bindings : Bindings} (name : String) {body more : List Instruction} {text : String} :
      WritesText renderer bindings body text →
        WritesText renderer bindings (.block name body :: more) text
  | later {bindings : Bindings} (instruction : Instruction) {more : List Instruction}
      {text : String} : WritesText renderer bindings more text →
      WritesText renderer bindings (instruction :: more) text

namespace Renderer

variable {renderer : Renderer} {bindings : Bindings} {front more body written : List Instruction}
  {instruction : Instruction} {text : String}

namespace WritesText

theorem append_right (front : List Instruction) (writes : renderer.WritesText bindings more text) :
    renderer.WritesText bindings (front ++ more) text := by
  induction front with
  | nil => exact writes
  | cons instruction front ih => exact .later instruction ih

theorem append_left (writes : renderer.WritesText bindings front text) (more : List Instruction) :
    renderer.WritesText bindings (front ++ more) text := by
  induction writes with
  | value escaping found => exact .value escaping found
  | conditional passes member inner _ => exact .conditional passes member inner
  | inverted passes inner _ => exact .inverted passes inner
  | inclusion name inner _ => exact .inclusion name inner
  | block name inner _ => exact .block name inner
  | later instruction _ ih => exact .later instruction ih

theorem of_append (writes : renderer.WritesText bindings (front ++ more) text) :
    renderer.WritesText bindings front text ∨ renderer.WritesText bindings more text := by
  induction front with
  | nil => exact .inr writes
  | cons instruction front ih =>
      cases writes with
      | value escaping found => exact .inl (.value escaping found)
      | conditional passes member inner => exact .inl (.conditional passes member inner)
      | inverted passes inner => exact .inl (.inverted passes inner)
      | inclusion name inner => exact .inl (.inclusion name inner)
      | block name inner => exact .inl (.block name inner)
      | later instruction writes => exact (ih writes).imp (.later instruction) id

theorem of_literal {literal : String}
    (writes : renderer.WritesText bindings (.literal literal :: more) text) :
    renderer.WritesText bindings more text := by
  cases writes with
  | later _ writes => exact writes

theorem appendText (writes : renderer.WritesText bindings written.reverse text) (added : String) :
    renderer.WritesText bindings (Program.appendText added written).reverse text := by
  unfold Program.appendText
  split
  · next before earlier =>
      rw [List.reverse_cons] at writes ⊢
      obtain writes | literal := writes.of_append
      · exact writes.append_left _
      · cases literal.of_literal
  · rw [List.reverse_cons]
    exact writes.append_left _

theorem addJoined (writes : renderer.WritesText bindings written.reverse text)
    (instruction : Instruction) :
    renderer.WritesText bindings (addJoined written instruction).reverse text := by
  cases instruction with
  | literal added =>
      unfold Stencil.addJoined
      split
      · exact writes
      · exact writes.appendText added
  | lambda call template =>
      cases template <;>
      · rw [Stencil.addJoined, List.reverse_cons]
        exact writes.append_left _
  | _ =>
      rw [Stencil.addJoined, List.reverse_cons]
      exact writes.append_left _

theorem joinOnto (writes : renderer.WritesText bindings written.reverse text)
    (more : List Instruction) :
    renderer.WritesText bindings (joinOnto written more).reverse text := by
  induction more generalizing written with
  | nil => exact writes
  | cons instruction more ih => exact ih (writes.addJoined instruction)

theorem of_addJoined {result : Instruction}
    (added : Stencil.addJoined written instruction = result :: written) (more : List Instruction)
    (writes : renderer.WritesText bindings [result] text) :
    renderer.WritesText bindings (Stencil.joinOnto written (instruction :: more)).reverse text := by
  rw [Stencil.joinOnto, added]
  refine joinOnto ?_ more
  rw [List.reverse_cons]
  exact writes.append_right _

theorem joined (writes : renderer.WritesText bindings body text) :
    renderer.WritesText bindings (joined body) text := by
  have all (written : List Instruction) :
      renderer.WritesText bindings (Stencil.joinOnto written body).reverse text := by
    induction writes generalizing written with
    | value escaping found => exact of_addJoined rfl _ (.value escaping found)
    | conditional passes member _ ih =>
        exact of_addJoined rfl _ (.conditional passes member (ih []))
    | inverted passes _ ih => exact of_addJoined rfl _ (.inverted passes (ih []))
    | inclusion name _ ih => exact of_addJoined rfl _ (.inclusion name (ih []))
    | block name _ ih => exact of_addJoined rfl _ (.block name (ih []))
    | later instruction _ ih => exact ih _
  exact all []

end WritesText

def Indents (renderer : Renderer) (bindings : Bindings) (indent : String) (atStart : Bool)
    (text : String) (other : List Instruction) (last : Layout) : Prop :=
  ∃ otherText after, renderer.runAll bindings other = .ok otherText ∧
    Text.Indents indent.toList atStart text.toList otherText.toList after ∧ last.Allows after

variable {indent : String} {layout middle last : Layout} {other otherMore : List Instruction}
  {atStart : Bool} {moreText : String}

/-- That no text written for a variable breaks the line. -/
def Unbroken (renderer : Renderer) (bindings : Bindings) (body : List Instruction) : Prop :=
  ∀ written, renderer.WritesText bindings body written → '\n' ∉ written.toList

theorem Indents.cons
    (front : ∀ {text}, renderer.run bindings instruction = .ok text →
      renderer.Indents bindings indent atStart text other middle)
    (back : ∀ {text atStart}, renderer.runAll bindings more = .ok text → middle.Allows atStart →
      renderer.Unbroken bindings more →
        renderer.Indents bindings indent atStart text otherMore last)
    (done : renderer.runAll bindings (instruction :: more) = .ok text)
    (unbroken : renderer.Unbroken bindings (instruction :: more)) :
    renderer.Indents bindings indent atStart text (other ++ otherMore) last := by
  obtain ⟨first, here, done⟩ := bind_eq_ok.mp done
  obtain ⟨rest, later, done⟩ := bind_eq_ok.mp done
  cases done
  obtain ⟨otherText, between, run, indents, allows⟩ := front here
  obtain ⟨otherRest, after, further, indentsRest, allowsAfter⟩ :=
    back later allows fun written writes => unbroken written (.later _ writes)
  refine ⟨otherText ++ otherRest, after, ?_, ?_, allowsAfter⟩
  · rw [runAll_append, run, ok_bind, further, ok_bind, pure_eq_ok]
  · rw [String.toList_append, String.toList_append]
    exact indents.append indentsRest

theorem indents_write (inline : instruction.isInline)
    (done : renderer.run bindings instruction = .ok text)
    (unbroken : renderer.Unbroken bindings (instruction :: more)) (atStart : Bool) :
    renderer.Indents bindings indent atStart text
      (Layout.indentation indent atStart ++ [instruction]) .middle := by
  have within : '\n' ∉ text.toList := by
    cases instruction with
    | literal content =>
        cases done
        exact inline
    | value expr escaping =>
        obtain ⟨found, evaluated, done⟩ := bind_eq_ok.mp done
        cases done
        exact unbroken _ (.value escaping evaluated)
    | _ => cases inline
  have indented : renderer.runAll bindings (Layout.indentation indent atStart) =
      .ok (if atStart then indent else "") := by
    cases atStart with
    | false => rfl
    | true =>
        unfold Layout.indentation
        cases empty : indent.isEmpty with
        | true =>
            rw [String.isEmpty_iff] at empty
            rw [empty]
            rfl
        | false => exact runAll_singleton renderer bindings (.literal indent)
  refine ⟨(if atStart then indent else "") ++ text, false, ?_, ?_, .inl rfl⟩
  · rw [runAll_append, indented, runAll_singleton, done]
    rfl
  · have written : Text.Indents indent.toList atStart text.toList
        ((if atStart then indent.toList else []) ++ text.toList) false := .one_text within
    rw [String.toList_append]
    cases atStart <;> exact written

theorem exists_mapM_indents {steps : List Bindings} {texts : List String}
    (each : ∀ inner ∈ steps, ∀ {text atStart}, renderer.runAll inner body = .ok text →
      layout.Allows atStart → renderer.Indents inner indent atStart text other layout)
    (done : steps.mapM (renderer.runAll · body) = .ok texts) (allows : layout.Allows atStart) :
    ∃ otherTexts after, steps.mapM (renderer.runAll · other) = .ok otherTexts ∧
      Text.Indents indent.toList atStart (String.join texts).toList
        (String.join otherTexts).toList after ∧ layout.Allows after := by
  rw [mapM_eq_ok] at done
  induction done generalizing atStart with
  | nil => exact ⟨[], atStart, rfl, .nil, allows⟩
  | @cons inner text _ _ first _ ih =>
      obtain ⟨here, later⟩ := List.forall_mem_cons.mp each
      obtain ⟨otherText, between, run, indents, middle⟩ := here first allows
      obtain ⟨otherTexts, after, further, indentsRest, last⟩ := ih later middle
      refine ⟨otherText :: otherTexts, after, ?_, ?_, last⟩
      · rw [List.mapM_cons, run, ok_bind, further, ok_bind, pure_eq_ok]
      · rw [String.join_cons, String.join_cons, String.toList_append, String.toList_append]
        exact indents.append indentsRest

theorem indents_newline (ending : LineEnding)
    (done : renderer.run bindings (.literal ending.text) = .ok text) (atStart : Bool) :
    renderer.Indents bindings indent atStart text [.literal ending.text] .start := by
  cases done
  refine ⟨ending.text, true, runAll_singleton renderer bindings _, ?_, .inl rfl⟩
  have ended : Text.Indents indent.toList atStart (ending.text.toList ++ [])
      (ending.text.toList ++ []) true := .newline ending .nil
  rwa [List.append_nil] at ended

/-- A run of the instructions with indentation writes the same, with the indentation in front of
what is written first on each line. -/
theorem runAll_laid (laid : Laid indent layout body other last)
    (done : renderer.runAll bindings body = .ok text) (allows : layout.Allows atStart)
    (unbroken : renderer.Unbroken bindings body) :
    renderer.Indents bindings indent atStart text other last := by
  induction laid generalizing bindings text atStart with
  | nil =>
      cases done
      exact ⟨"", atStart, rfl, .nil, allows⟩
  | wider wide _ ih => exact ih done (wide atStart allows) unbroken
  | @write line last instruction more otherMore inline _ ih =>
      obtain rfl := Layout.eq_of_allows allows
      rw [List.append_cons]
      exact .cons (fun here => indents_write inline here unbroken atStart) ih done unbroken
  | newline ending _ ih =>
      rw [← List.singleton_append]
      exact .cons (fun here => indents_newline ending here atStart) ih done unbroken
  | @conditional layout last body other more otherMore guard _ _ ihInner ih =>
      rw [← List.singleton_append]
      refine .cons ?_ ih done unbroken
      intro text here
      obtain ⟨steps, passes, here⟩ := bind_eq_ok.mp here
      obtain ⟨texts, done, here⟩ := bind_eq_ok.mp here
      cases here
      have each : ∀ inner ∈ steps, ∀ {text atStart}, renderer.runAll inner body = .ok text →
          layout.Allows atStart → renderer.Indents inner indent atStart text other layout := by
        intro inner member text atStart run allows
        exact ihInner run allows fun written writes =>
          unbroken written (.conditional passes member writes)
      obtain ⟨otherTexts, after, further, indents, allowsAfter⟩ :=
        exists_mapM_indents each done allows
      refine ⟨String.join otherTexts, after, ?_, indents, allowsAfter⟩
      rw [runAll_singleton, run, passes, ok_bind, further, ok_bind, pure_eq_ok]
  | @inverted layout after last body other more otherMore guard _ wide _ ihInner ih =>
      rw [← List.singleton_append]
      refine .cons ?_ ih done unbroken
      intro text here
      obtain ⟨steps, passes, here⟩ := bind_eq_ok.mp here
      cases steps with
      | nil =>
          obtain ⟨otherText, ended, further, indents, allowsAfter⟩ :=
            ihInner here allows fun written writes => unbroken written (.inverted passes writes)
          refine ⟨otherText, ended, ?_, indents, allowsAfter⟩
          rw [runAll_singleton, run, passes]
          exact further
      | cons step steps =>
          cases here
          refine ⟨"", atStart, ?_, .nil, wide atStart allows⟩
          rw [runAll_singleton, run, passes]
          rfl
  | block name _ _ ihInner ih =>
      rw [← List.singleton_append]
      refine .cons ?_ ih done unbroken
      intro text here
      obtain ⟨otherText, ended, further, indents, allowsAfter⟩ :=
        ihInner here allows fun written writes => unbroken written (.block name writes)
      refine ⟨otherText, ended, ?_, indents, allowsAfter⟩
      rw [runAll_singleton, run]
      exact further

end Renderer

end Stencil
