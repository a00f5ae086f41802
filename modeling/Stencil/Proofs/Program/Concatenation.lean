import Stencil.Proofs.Compile.Boundaries
import Stencil.Proofs.Compile.Renaming
import Stencil.Proofs.Render.Joined
import Stencil.Render.Template

/-!
Templates put one behind the other. Main statement: behind a template of whole lines, another one is
written as it is by itself.
-/

namespace Stencil

namespace Compile

variable {setting : Setting} {nested? : Option Nested} {name first second : String}

theorem groups_append (schema : Schema) {before after : List Token}
    (readFirst : tokenize name first = .ok before)
    (unchanged : ∀ token ∈ before, ∀ opening closing, token.kind ≠ .delimiters opening closing)
    (ends : first.toList.getLast? = some '\n') (readSecond : tokenize name second = .ok after) :
    ∃ front newline ending lines others, before = front ++ [newline] ++ [ending] ∧
      newline.isNewline = true ∧ ending.isEof = true ∧
      groups (.root schema ⟨name, first ++ second⟩) = .ok (lines ++ others) ∧
      (LineClassifier.drain true (front ++ [newline])).map (List.map LineToken.unplaced) =
        lines.map (List.map LineToken.unplaced) ∧
      (LineClassifier.groupsOf after).map (List.map LineToken.unplaced) =
        others.map (List.map LineToken.unplaced) := by
  obtain ⟨body, newline, ending, front, others, rfl, isNewline, isEof, joined, sameFront,
    sameOthers⟩ := tokenize_append readFirst unchanged ends readSecond
  have filled : others ≠ [] := by
    rintro rfl
    obtain ⟨rest, last, rfl, -⟩ := endsOnce_of_tokenize readSecond
    simp at sameOthers
  have final : ∀ token ∈ front.getLast?, token.isNewline = true := by
    intro token member
    have last := congrArg List.getLast? sameFront
    rw [List.getLast?_map, List.getLast?_map, member, List.getLast?_concat] at last
    have same : token.unplaced = newline.unplaced := Option.some.inj last
    have unplaced : token.unplaced.isNewline = newline.unplaced.isNewline := by rw [same]
    exact unplaced.trans isNewline
  refine ⟨body, newline, ending, LineClassifier.drain true front, LineClassifier.groupsOf others,
    rfl, isNewline, isEof, ?_, ?_, ?_⟩
  · rw [groups_unreplaced rfl joined,
      LineClassifier.groupsOf_append final filled (endsOnce_of_tokenize joined)]
  · rw [← LineClassifier.drain_unplaced, ← LineClassifier.drain_unplaced, sameFront]
  · rw [← LineClassifier.groupsOf_unplaced, ← LineClassifier.groupsOf_unplaced, sameOthers]

theorem State.Renames.root (schema : Schema) (template : Template) (names : FreshNames) :
    State.Renames (.shift _ (Renaming.ahead_root names)) (.start (.root schema template))
      { State.start (.root schema template) with names } :=
  ⟨(Scope.rename_root _).symm, Renaming.follows_root names, rfl, rfl, .nil, .normal⟩

theorem State.Renames.of_root {ρ : Renaming} {schema : Schema} {template : Template}
    {names : FreshNames} {after : State}
    (renames : State.Renames ρ { State.start (.root schema template) with names } after) :
    after = { State.start (.root schema template) with names := after.names } := by
  obtain ⟨scope, -, atLineStart, pendingIndent, openTags, mode⟩ := renames
  obtain ⟨_, _, _, _, _, _⟩ := after
  obtain rfl := List.forall₂_nil_left_iff.mp openTags
  obtain rfl := scope
  obtain rfl := atLineStart
  obtain rfl := pendingIndent
  cases mode
  rw [Body.root, State.start, Scope.rename_root]

/-- A template behind whole lines adds the events that it has by itself, under new names. -/
theorem compileWith_append {events more : List Event} {ended atLineStart : Bool}
    (ends : first.toList.getLast? = some '\n')
    (unchanged : ∀ tokens, tokenize name first = .ok tokens → ∀ token ∈ tokens,
      ∀ opening closing, token.kind ≠ .delimiters opening closing)
    (respects : ∀ nested ∈ nested?, RespectsNames setting.library nested nested)
    (nestedDerives : ∀ nested ∈ nested?, NestedDerives setting nested)
    (done : compileWith setting nested? (.root setting.schema ⟨name, first⟩) = .ok (events, ended))
    (accepted : Program.Accepts events)
    (further : compileWith setting nested? (.root setting.schema ⟨name, second⟩) =
      .ok (more, atLineStart)) :
    ∃ ρ σ others rest, compileWith setting nested? (.root setting.schema ⟨name, first ++ second⟩) =
        .ok (others ++ rest, atLineStart) ∧
      Renames ρ events others ∧ Renames σ more rest := by
  obtain ⟨lines, grouped, -⟩ := bind_eq_ok.mp done
  obtain ⟨before, readFirst, -⟩ := groups_root grouped
  obtain ⟨lines, grouped, further⟩ := bind_eq_ok.mp further
  obtain ⟨⟨written, last⟩, run, further⟩ := bind_eq_ok.mp further
  obtain ⟨⟨⟩, closed, further⟩ := bind_eq_ok.mp further
  cases further
  obtain ⟨after, readSecond, rfl⟩ := groups_root grouped
  obtain ⟨front, newline, ending, lines, others, rfl, isNewline, isEof, whole, sameFront,
    sameOthers⟩ := groups_append setting.schema readFirst (unchanged _ readFirst) ends readSecond
  obtain ⟨names, firstRun⟩ :=
    compileWith_lines rfl rfl readFirst isNewline isEof nestedDerives done accepted
  have like (source other : String) : Body.Matches setting.library
      (.root setting.schema ⟨name, source⟩) (.root setting.schema ⟨name, other⟩) :=
    ⟨.refl _ _, rfl, rfl⟩
  have alike : ∀ nested ∈ nested?, ∃ other ∈ nested?,
      RespectsNames setting.library nested other :=
    fun nested given => ⟨nested, given, respects nested given⟩
  -- The lines are read as they are without the other template. What they leave behind is its start,
  -- but for the names used, so that it is read as it is by itself.
  obtain ⟨calls, middle, otherRun, renamed, states⟩ := readGroups_renames
    (like first (first ++ second)) alike (.root setting.schema ⟨name, first⟩ .root) sameFront _ _
    firstRun
  obtain ⟨rest, final, lastRun, renamedRest, same⟩ := readGroups_renames
    (like second (first ++ second)) alike (.root setting.schema ⟨name, second⟩ middle.names)
    sameOthers _ _ run
  have started : runAll (readGroup setting nested? (.root setting.schema ⟨name, first ++ second⟩))
      (.start (.root setting.schema ⟨name, first ++ second⟩)) lines = .ok (calls, middle) :=
    otherRun
  have resumed : runAll (readGroup setting nested? (.root setting.schema ⟨name, first ++ second⟩))
      middle others = .ok (rest, final) := by
    rw [states.of_root]
    exact lastRun
  refine ⟨_, _, calls, rest, ?_, renamed, renamedRest⟩
  rw [compileWith, whole, ok_bind, runAll_append, started, ok_bind]
  simp only [resumed, ok_bind, pure_eq_ok, checkClosed_renames same closed, same.atLineStart]

theorem forall_nestedAt {P : Nested → Prop} (each : ∀ room, P (compileBody setting room))
    (room : Nat) : ∀ nested ∈ nestedAt setting room, P nested := by
  intro nested member
  cases room with
  | zero => cases member
  | succ room =>
      obtain rfl := Option.some.inj member
      exact each room

end Compile

namespace Program

open Compile

variable {schema : Schema} {library : Library} {options : Options} {template : Template}

theorem compile_of_spells {events : List Event} {atLineStart : Bool}
    {instructions : List Instruction}
    (done : compileBody ⟨schema, library, options⟩ options.maxIncludeDepth (.root schema template) =
      .ok (events, atLineStart)) (spells : Spells events instructions) :
    Program.compile schema library options template =
      .ok ⟨template.name, joinOnto [] instructions, []⟩ := by
  rw [Program.compile, Stencil.compile, done]
  exact ofEvents_spells spells template.name

theorem render_joined (renderer : Renderer) (name : String) (instructions : List Instruction)
    (data : Json) (context : ContextNode) :
    renderer.render ⟨name, joinOnto [] instructions, []⟩ data context =
      renderer.runAll (.root name data context) instructions :=
  renderer.runAll_joined _ instructions

/-- Behind a template of whole lines that changes no delimiters, another one of its name is written
as it is by itself. -/
theorem compile_append {name first second : String} {before after : Program}
    (ends : first.toList.getLast? = some '\n')
    (unchanged : ∀ tokens, tokenize name first = .ok tokens → ∀ token ∈ tokens,
      ∀ opening closing, token.kind ≠ .delimiters opening closing)
    (compiled : Program.compile schema library options ⟨name, first⟩ = .ok before)
    (further : Program.compile schema library options ⟨name, second⟩ = .ok after) :
    ∃ whole, Program.compile schema library options ⟨name, first ++ second⟩ = .ok whole ∧
      ∀ (renderer : Renderer) (data : Json) (context : ContextNode) (text more : String),
        renderer.render before data context = .ok text →
        renderer.render after data context = .ok more →
        renderer.render whole data context = .ok (text ++ more) := by
  obtain ⟨events, ended, -, instructions, -, done, -, -, spells, rfl⟩ := compile_ok compiled
  obtain ⟨rest, atLineStart, -, others, -, doneNext, -, -, spellsNext, rfl⟩ := compile_ok further
  rw [compileBody_eq] at done doneNext
  have respects (room : Nat) : RespectsNames library
      (compileBody ⟨schema, library, options⟩ room) (compileBody ⟨schema, library, options⟩ room) :=
    compileBody_renames ⟨schema, library, options⟩ le_rfl
  obtain ⟨ρ, σ, calls, later, joined, renamed, renamedNext⟩ :=
    compileWith_append ends unchanged
      (forall_nestedAt (P := fun nested => RespectsNames library nested nested) respects _)
      (forall_nestedAt (compileBody_derives _) _) done
      (accepts_of_ofEvents (ofEvents_spells spells name)) doneNext
  rw [← compileBody_eq] at joined
  have whole := (spells.rename renamed).append (spellsNext.rename renamedNext)
  refine ⟨_, compile_of_spells joined whole, ?_⟩
  intro renderer data context text more rendered renderedNext
  rw [render_joined] at rendered renderedNext ⊢
  have front : renderer.runAll (Bindings.rename ρ (.root name data context))
      (renameAll ρ instructions) = .ok text := renderer.runAll_rename _ _ rendered
  have back : renderer.runAll (Bindings.rename σ (.root name data context))
      (renameAll σ others) = .ok more := renderer.runAll_rename _ _ renderedNext
  rw [Bindings.rename_root] at front back
  rw [Renderer.runAll_append, front, ok_bind, back]
  rfl

theorem renderTemplate_ok {renderer : Renderer} {data : Json} {context : ContextNode}
    {text : String}
    (done : renderer.renderTemplate schema library options template data context = .ok text) :
    ∃ program, Program.compile schema library options template = .ok program ∧
      renderer.render program data context = .ok text := by
  obtain ⟨program, compiled, done⟩ := bind_eq_ok.mp done
  exact ⟨program, mapError_eq_ok.mp compiled, mapError_eq_ok.mp done⟩

theorem compile_append_loops :
    ∃ before after whole,
      Program.compile (.ofRoot (.sequence .text)) (.ofCatalog []) .default
        ⟨"main", "{{#.}}\n- {{.}}\n{{/.}}\n"⟩ = .ok before ∧
      Renderer.plain.render before (.array [.string "a", .string "b"]) .empty = .ok "- a\n- b\n" ∧
      Program.compile (.ofRoot (.sequence .text)) (.ofCatalog []) .default
        ⟨"main", "{{#.}}{{.}};{{/.}}"⟩ = .ok after ∧
      Renderer.plain.render after (.array [.string "a", .string "b"]) .empty = .ok "a;b;" ∧
      Program.compile (.ofRoot (.sequence .text)) (.ofCatalog []) .default
        ⟨"main", "{{#.}}\n- {{.}}\n{{/.}}\n" ++
          "{{#.}}{{.}};{{/.}}"⟩ = .ok whole ∧
      Renderer.plain.render whole (.array [.string "a", .string "b"]) .empty =
        .ok ("- a\n- b\n" ++ "a;b;") := by
  have written : (Renderer.plain.renderTemplate (.ofRoot (.sequence .text)) (.ofCatalog []) .default
      ⟨"main", "{{#.}}\n- {{.}}\n{{/.}}\n"⟩
      (.array [.string "a", .string "b"]) .empty).toOption = some "- a\n- b\n" := by
    decide +kernel
  have writtenNext : (Renderer.plain.renderTemplate (.ofRoot (.sequence .text)) (.ofCatalog [])
      .default ⟨"main", "{{#.}}{{.}};{{/.}}"⟩
      (.array [.string "a", .string "b"]) .empty).toOption = some "a;b;" := by
    decide +kernel
  obtain ⟨before, compiled, rendered⟩ := renderTemplate_ok (eq_ok_of_toOption written)
  obtain ⟨after, further, renderedNext⟩ := renderTemplate_ok (eq_ok_of_toOption writtenNext)
  have kinds : (tokenize "main" "{{#.}}\n- {{.}}\n{{/.}}\n").map
      (List.map Token.kind) =
      .ok [.tag .openSection ".", .newline .lf, .text "-", .whitespace " ", .tag .escaped ".",
        .newline .lf, .tag .close ".", .newline .lf, .eof] :=
    eq_ok_of_toOption (by decide +kernel)
  have unchanged : ∀ tokens, tokenize "main"
      "{{#.}}\n- {{.}}\n{{/.}}\n" = .ok tokens →
      ∀ token ∈ tokens, ∀ opening closing, token.kind ≠ .delimiters opening closing := by
    intro tokens read token member opening closing changed
    rw [read] at kinds
    have kept := List.mem_map_of_mem (f := Token.kind) member
    rw [Except.ok.inj kinds, changed] at kept
    simp at kept
  obtain ⟨whole, joined, renders⟩ := compile_append (by decide +kernel) unchanged compiled further
  exact ⟨before, after, whole, compiled, rendered, further, renderedNext, joined,
    renders _ _ _ _ _ rendered renderedNext⟩

end Program

end Stencil
