import Stencil.Proofs.Compile.Layout
import Stencil.Proofs.Compile.Untagged
import Stencil.Render.Template

/-!
Indented partials. Main statement: a partial whose tag is indented is written line by line behind
the indentation, if nothing in it is written where a line may or may not begin.
-/

namespace Stencil

open Lexeme

def inclusionLine (before : Option String) (name : String) : StandaloneLine where
  before := before.map Token.blank
  tag := TagKind.inclusion.token name
  after := none
  ending := .lineFeed
  before_isWhitespace := by
    intro token member
    obtain ⟨text, -, rfl⟩ := Option.map_eq_some_iff.mp member
    rfl
  tag_isStandalone := rfl
  after_isWhitespace := by simp
  ending_endsLine := rfl

namespace Compile

variable {setting : Setting} {nested? : Option Nested} {body : Body} {s : State}

theorem runAll_inclusion {tag newline ending : LineToken} {name : String}
    (normal : s.mode = .normal) (role : tag.role = .normal)
    (includes : tag.token.kind = .tag .inclusion name) (ignored : newline.role = .ignore)
    (ends : newline.token.isNewline = true) (last : ending.token.kind = .eof) :
    runAll (readToken setting nested? body false false) s [tag, newline, ending] =
      (includeTemplate setting nested? body { s with pendingIndent := none } .inclusion name
        tag.token.position (s.pendingIndent.getD "") []).map
        fun (events, next) => (events, { next with atLineStart := true }) := by
  rw [runAll, readToken_inclusion normal role includes]
  cases done : includeTemplate setting nested? body { s with pendingIndent := none } .inclusion name
    tag.token.position (s.pendingIndent.getD "") [] with
  | error problem => rfl
  | ok result =>
      have after := includeTemplate_state done
      have mode : result.2.mode = .normal := by
        rw [after]
        exact normal
      have skipped : readToken setting nested? body false false result.2 newline =
          .ok ([], { result.2 with atLineStart := true }) := by
        rw [readToken, mode, readPlain, ignored]
        exact congrArg (fun next => Except.ok ([], next)) (if_pos ends)
      have ended : readToken setting nested? body false false { result.2 with atLineStart := true }
          ending = .ok ([], { result.2 with atLineStart := true }) := by
        rw [readToken, mode]
        exact readPlain_eof last
      simp only [ok_bind, runAll, skipped, ended, pure_eq_ok, List.append_nil]
      rfl

theorem runAll_indent {front : List LineToken} {before : Option String} (normal : s.mode = .normal)
    (unindented : s.pendingIndent = none)
    (same : front.map LineToken.unplaced =
      ((before.map Token.blank).toList.map (LineToken.of .indent))) :
    runAll (readToken setting nested? body false false) s front =
      .ok ([], { s with pendingIndent := before }) := by
  cases before with
  | none =>
      obtain rfl := List.map_eq_nil_iff.mp same
      rw [← unindented]
      rfl
  | some indent =>
      obtain ⟨blank, rest, rfl, here, empty⟩ := List.map_eq_cons_iff.mp same
      obtain rfl := List.map_eq_nil_iff.mp empty
      have role : blank.role = .indent := congrArg LineToken.role here
      have kind : blank.token.kind = .whitespace indent :=
        congrArg (fun t : LineToken => t.token.kind) here
      simp only [runAll, readToken, normal, readPlain, role, kind, ok_bind, pure_eq_ok,
        List.append_nil]

theorem compileWith_inclusionLine (setting : Setting) (nested? : Option Nested) (body : Body)
    (noBlocks : body.blocks = []) {tokens : List Token} {before : Option String} {name : String}
    (read : tokenize body.stack.top.name body.source = .ok tokens)
    (same : tokens.map Token.unplaced =
      (inclusionLine before name).tokens ++ [⟨.eof, .unknown, ""⟩]) :
    ∃ position, compileWith setting nested? body =
      (includeTemplate setting nested? body (.start body) .inclusion name position
        (before.getD "") []).map fun (events, _) => (events, true) := by
  have grouped : (LineClassifier.groupsOf tokens).flatten.map LineToken.unplaced =
      (before.map Token.blank).toList.map (LineToken.of .indent) ++
        [.of .normal (TagKind.inclusion.token name), .of .ignore .lineFeed,
          .of .normal ⟨.eof, .unknown, ""⟩] := by
    rw [List.map_flatten, ← LineClassifier.groupsOf_unplaced, same,
      LineClassifier.groupsOf_tokens _ rfl rfl]
    simp [inclusionLine, StandaloneLine.group, LineClassifier.single]
  have apart {kind : TagKind} (other : kind ≠ .inclusion) :
      ∀ t ∈ (LineClassifier.groupsOf tokens).flatten, ∀ name, t.token.kind ≠ .tag kind name := by
    have each : ∀ t ∈ (LineClassifier.groupsOf tokens).flatten.map LineToken.unplaced,
        ∀ name, t.token.kind ≠ .tag kind name := by
      rw [grouped]
      cases before <;> simp [LineToken.of, Token.blank, Token.lineFeed, TagKind.token, other.symm]
    exact fun t member => each t.unplaced (List.mem_map_of_mem member)
  have unreplaced : groups body = .ok (LineClassifier.groupsOf tokens) :=
    groups_unreplaced noBlocks read
  rw [compileWith, unreplaced, ok_bind, runAll_readGroup_normal rfl (apart (by decide))
    (apart (by decide))]
  generalize (LineClassifier.groupsOf tokens).flatten = line at grouped ⊢
  obtain ⟨front, rest, rfl, indents, following⟩ := List.map_eq_append_iff.mp grouped
  obtain ⟨tag, rest, rfl, includes, following⟩ := List.map_eq_cons_iff.mp following
  obtain ⟨newline, rest, rfl, ends, following⟩ := List.map_eq_cons_iff.mp following
  obtain ⟨ending, rest, rfl, last, empty⟩ := List.map_eq_cons_iff.mp following
  obtain rfl := List.map_eq_nil_iff.mp empty
  have kind : tag.token.kind = .tag .inclusion name :=
    congrArg (fun t : LineToken => t.token.kind) includes
  have newlineKind : newline.token.isNewline = true :=
    congrArg (fun t : LineToken => t.token.isNewline) ends
  have endingKind : ending.token.kind = .eof := congrArg (fun t : LineToken => t.token.kind) last
  have role : tag.role = .normal := congrArg LineToken.role includes
  have ignored : newline.role = .ignore := congrArg LineToken.role ends
  refine ⟨tag.token.position, ?_⟩
  rw [runAll_append, runAll_indent rfl rfl indents, ok_bind]
  dsimp only
  rw [runAll_inclusion rfl role kind ignored newlineKind endingKind]
  have unindented : { State.start body with pendingIndent := none } = State.start body := rfl
  dsimp only at unindented ⊢
  rw [unindented]
  cases done : includeTemplate setting nested? body (.start body) .inclusion name
    tag.token.position (before.getD "") [] with
  | error problem => rfl
  | ok result =>
      have after := includeTemplate_state done
      have closed : checkClosed body { result.2 with atLineStart := true } = .ok () := by
        rw [after]
        rfl
      simp only [Except.map, ok_bind, pure_eq_ok, List.nil_append, closed]

end Compile

namespace Program

open Compile

theorem exists_tokens_inclusionLine {name : String} (named : IsTagName name)
    {before : Option String}
    (blank : ∀ text ∈ before, text ≠ "" ∧ ∀ c ∈ text.toList, isInlineSpace c = true)
    (template : String) :
    ∃ tokens, tokenize template (before.getD "" ++ TagKind.inclusion.write name ++ "\n") =
        .ok tokens ∧
      tokens.map Token.unplaced = (inclusionLine before name).tokens ++ [⟨.eof, .unknown, ""⟩] := by
  have line : ReadsAll [TagKind.inclusion.token name, .lineFeed] [] :=
    .cons (reads_tag (c := '>') rfl named _) (.cons (reads_lineFeed _) .nil)
  have written : chars [TagKind.inclusion.token name, .lineFeed] =
      (TagKind.inclusion.write name ++ "\n").toList := by
    simp [chars, TagKind.token, Token.lineFeed]
  cases before with
  | none =>
      obtain ⟨tokens, read, same⟩ := tokenize_of_readsAll line written template
      refine ⟨tokens, ?_, same⟩
      rw [← read, Option.getD_none, String.empty_append]
  | some text =>
      obtain ⟨filled, inline⟩ := blank text rfl
      have indented : ReadsAll [.blank text, TagKind.inclusion.token name, .lineFeed] [] := by
        refine .cons (reads_blank filled inline ?_) line
        rw [chars_cons, TagKind.token, TagKind.toList_write]
        rfl
      have whole : chars [.blank text, TagKind.inclusion.token name, .lineFeed] =
          (text ++ TagKind.inclusion.write name ++ "\n").toList := by
        rw [chars_cons, written, String.append_assoc]
        simp [Token.blank]
      exact tokenize_of_readsAll indented whole template

theorem compile_inclusionLine {schema : Schema} (library : Library) (options : Options)
    (root : String) {name source : String} {before : Option String} (named : IsTagName name)
    (blank : ∀ text ∈ before, text ≠ "" ∧ ∀ c ∈ text.toList, isInlineSpace c = true)
    (written : source = before.getD "" ++ TagKind.inclusion.write name ++ "\n") :
    ∃ position, Program.compile schema library options ⟨root, source⟩ =
      (includeTemplate ⟨schema, library, options⟩
        (nestedAt ⟨schema, library, options⟩ options.maxIncludeDepth)
        (.root schema ⟨root, source⟩) (.start (.root schema ⟨root, source⟩)) .inclusion name
        position (before.getD "") []) >>= fun result => Program.ofEvents root result.1 := by
  subst written
  obtain ⟨tokens, read, same⟩ := exists_tokens_inclusionLine named blank root
  obtain ⟨position, compiled⟩ := compileWith_inclusionLine ⟨schema, library, options⟩
    (nestedAt ⟨schema, library, options⟩ options.maxIncludeDepth)
    (.root schema ⟨root, before.getD "" ++ TagKind.inclusion.write name ++ "\n"⟩) rfl read same
  exact ⟨position, compile_eq_bind (fun _ => true) compiled⟩

/-- With and without indentation, a partial is compiled to the same instructions, but for the
indentation at the starts of lines. -/
theorem compile_laid {schema : Schema} {library : Library} {options : Options}
    {root name indent : String} {included : Template} {program : Program}
    (noLambdas : schema.lambdas = []) (named : IsTagName name)
    (found : ∀ stack position, library.fetch name stack position = .ok included)
    (steady : included.isSteady = true) (filled : indent ≠ "")
    (blank : ∀ c ∈ indent.toList, isInlineSpace c = true)
    (compiled : Program.compile schema library options
      ⟨root, TagKind.inclusion.write name ++ "\n"⟩ = .ok program) :
    ∃ body other layout, program = ⟨root, [.inclusion name (joined body)], []⟩ ∧
      Program.compile schema library options
        ⟨root, indent ++ TagKind.inclusion.write name ++ "\n"⟩ =
        .ok ⟨root, [.inclusion name (joined other)], []⟩ ∧
      Laid indent .start body other layout := by
  have plain : TagKind.inclusion.write name ++ "\n" =
      (none : Option String).getD "" ++ TagKind.inclusion.write name ++ "\n" := by simp
  have indented : indent ++ TagKind.inclusion.write name ++ "\n" =
      (some indent).getD "" ++ TagKind.inclusion.write name ++ "\n" := rfl
  obtain ⟨position, line⟩ :=
    compile_inclusionLine library options root named (by simp) plain
  obtain ⟨otherPosition, otherLine⟩ :=
    compile_inclusionLine library options root named (by simpa [filled] using blank)
      indented
  rw [line] at compiled
  obtain ⟨⟨events, after⟩, done, made⟩ := bind_eq_ok.mp compiled
  obtain ⟨nested, template, ⟨inner, atLineStart⟩, room, fetched, acyclic, run, rfl⟩ :=
    includeTemplate_ok done
  obtain rfl := Except.ok.inj ((found _ _).symm.trans fetched)
  cases depth : options.maxIncludeDepth with
  | zero =>
      rw [depth] at room
      cases room
  | succ deeper =>
      rw [depth, nestedAt, Option.some.injEq] at room
      subst room
      rw [compileBody_eq] at run
      obtain ⟨others, layout, otherRun, body, other, laid, spells, otherSpells⟩ :=
        compileWith_indented noLambdas rfl rfl rfl steady run indent
      refine ⟨body, other, layout, ?_, ?_, laid⟩
      · have whole := ofEvents_spells (Spells.enclose (.inclusion name) spells) root
        exact Except.ok.inj (made.symm.trans whole)
      · have entered : compileBody ⟨schema, library, options⟩ deeper
            (Body.enter (.root schema ⟨root, indent ++ TagKind.inclusion.write name ++ "\n"⟩)
              (.start (.root schema ⟨root, indent ++ TagKind.inclusion.write name ++ "\n"⟩))
              .inclusion included indent []) = .ok (others, atLineStart) := by
          rw [compileBody_eq, ← otherRun, Body.enter]
          simp [Body.root, State.start, Body.enter]
        have whole := ofEvents_spells (Spells.enclose (.inclusion name) otherSpells) root
        rw [otherLine, depth, nestedAt, Option.getD_some,
          includeTemplate_found (found _ _) (.inr ?_), entered]
        · exact whole
        · exact acyclic.resolve_left (by simp)

/-- If the tag of a partial is indented, its output is indented line by line. -/
theorem compile_indented {schema : Schema} {library : Library} {options : Options}
    {root name indent : String} {included : Template} {program : Program} {renderer : Renderer}
    {data : Json} {context : ContextNode} {output : String} (noLambdas : schema.lambdas = [])
    (named : IsTagName name)
    (found : ∀ stack position, library.fetch name stack position = .ok included)
    (steady : included.isSteady = true) (filled : indent ≠ "")
    (blank : ∀ c ∈ indent.toList, isInlineSpace c = true)
    (compiled : Program.compile schema library options
      ⟨root, TagKind.inclusion.write name ++ "\n"⟩ = .ok program)
    (rendered : renderer.render program data context = .ok output)
    (unbroken : renderer.Unbroken (.root root data context) program.instructions) :
    ∃ other otherOutput,
      Program.compile schema library options
        ⟨root, indent ++ TagKind.inclusion.write name ++ "\n"⟩ = .ok other ∧
      renderer.render other data context = .ok otherOutput ∧
      List.Forall₂ (Text.IndentedLine indent.toList)
        ((Text.lines output.toList).map Text.dropReturn)
        ((Text.lines otherOutput.toList).map Text.dropReturn) := by
  obtain ⟨body, other, layout, rfl, otherCompiled, laid⟩ :=
    compile_laid noLambdas named found steady filled blank compiled
  have render (instructions : List Instruction) :
      renderer.render ⟨root, [.inclusion name (joined instructions)], []⟩ data context =
        renderer.runAll (.root root data context) instructions := by
    have single : Program.instructions ⟨root, [.inclusion name (joined instructions)], []⟩ =
        [.inclusion name (joined instructions)] := rfl
    rw [Renderer.render, single, Renderer.runAll_singleton, Renderer.run, Renderer.runAll_joined]
  have clean : renderer.Unbroken (.root root data context) body := by
    intro text writes
    exact unbroken text (.inclusion name writes.joined)
  rw [render] at rendered
  obtain ⟨otherOutput, after, run, indents, -⟩ :=
    Renderer.runAll_laid laid rendered (.inl rfl) clean
  refine ⟨_, otherOutput, otherCompiled, (render other).trans run, ?_⟩
  refine indents.forall_lines ?_ ?_
  · intro member
    cases blank _ member
  · intro member
    cases blank _ member

theorem compile_indented_lines :
    let library := Library.ofCatalog [("p", "a\n\n{{.}}\n")]
    ∃ program other,
      Program.compile (.ofRoot .text) library .default ⟨"main", "{{>p}}\n"⟩ = .ok program ∧
      Renderer.plain.render program (.string "b") .empty = .ok "a\n\nb\n" ∧
      Program.compile (.ofRoot .text) library .default ⟨"main", "  {{>p}}\n"⟩ = .ok other ∧
      ∃ output, Renderer.plain.render other (.string "b") .empty = .ok output ∧
        List.Forall₂ (Text.IndentedLine [' ', ' ']) [['a'], [], ['b'], []]
          ((Text.lines output.toList).map Text.dropReturn) := by
  intro library
  have compiled : Program.compile (.ofRoot .text) library .default ⟨"main", "{{>p}}\n"⟩ =
      .ok ⟨"main", [.inclusion "p" [.literal "a\n\n", .value (.var "data") .escaped,
        .literal "\n"]], []⟩ := by
    with_unfolding_all rfl
  have rendered : Renderer.plain.render ⟨"main", [.inclusion "p" [.literal "a\n\n",
      .value (.var "data") .escaped, .literal "\n"]], []⟩ (.string "b") .empty =
      .ok "a\n\nb\n" := rfl
  have unbroken : Renderer.plain.Unbroken (.root "main" (.string "b") .empty)
      [.inclusion "p" [.literal "a\n\n", .value (.var "data") .escaped, .literal "\n"]] := by
    intro text writes
    cases writes with
    | later _ none => cases none
    | inclusion _ inside =>
        cases inside.of_literal with
        | value _ found =>
            cases found
            decide
        | later _ inside => cases inside.of_literal
  have noLambdas : (Schema.ofRoot .text).lambdas = [] := rfl
  have named : IsTagName "p" := ⟨rfl, by decide⟩
  have found : ∀ stack position, library.fetch "p" stack position =
      .ok ⟨"p", "a\n\n{{.}}\n"⟩ := fun _ _ => rfl
  have steady : Template.isSteady ⟨"p", "a\n\n{{.}}\n"⟩ = true := by decide +kernel
  have filled : "  " ≠ "" := by decide
  have blank : ∀ c ∈ "  ".toList, isInlineSpace c = true := by simp [isInlineSpace]
  obtain ⟨other, output, otherCompiled, otherRendered, lines⟩ :=
    compile_indented noLambdas named found steady filled blank compiled rendered unbroken
  exact ⟨_, other, compiled, rendered, otherCompiled, output, otherRendered, lines⟩

/-- A section that is passed over leaves the line without its indentation. -/
theorem line_unindented_after_section :
    let library := Library.ofCatalog [("p", "{{#a}}x{{/a}}y\n")]
    let data : Json := .object [("a", .bool false)]
    (Renderer.plain.renderTemplate .dynamic library .default ⟨"main", "{{>p}}\n"⟩ data
      .empty).toOption = some "y\n" ∧
    (Renderer.plain.renderTemplate .dynamic library .default ⟨"main", "  {{>p}}\n"⟩ data
      .empty).toOption = some "y\n" ∧
    ¬ List.Forall₂ (Text.IndentedLine [' ', ' '])
      ((Text.lines "y\n".toList).map Text.dropReturn)
      ((Text.lines "y\n".toList).map Text.dropReturn) ∧
    Template.isSteady ⟨"p", "{{#a}}x{{/a}}y\n"⟩ = false := by
  refine ⟨by decide +kernel, by decide +kernel, ?_, by decide +kernel⟩
  intro lines
  cases lines with
  | cons first _ => cases first.filled (by decide)

end Program

end Stencil
