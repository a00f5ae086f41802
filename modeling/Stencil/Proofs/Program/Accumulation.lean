import Stencil.Proofs.Compile.Indented
import Stencil.Proofs.Program.Indentation
import Stencil.Proofs.Program.ParentCall

/-!
Chains of indented partials. Main statement: text at the end of a chain of templates, each of which
is one line that includes the next, is rendered with the indentations of all these lines in front of
each of its own lines that is not empty.
-/

namespace Stencil

open Lexeme Text

/-- The tag of a partial alone on its line, behind its indentation. -/
structure Link where
  indent : String
  name : String
  deriving DecidableEq, Repr

namespace Link

structure IsPlain (link : Link) : Prop where
  name : IsPlainName link.name
  indent : ∀ c ∈ link.indent.toList, isInlineSpace c = true

def line (link : Link) : String := link.indent ++ TagKind.inclusion.write link.name ++ "\n"

/-- The template in front of the rest of a chain: the line that goes on to the next template, or the
text at the end. -/
def source (text : String) : List Link → String
  | [] => text
  | link :: _ => link.line

def Holds (library : Library) (text : String) : List Link → Prop
  | [] => True
  | link :: rest =>
      (∀ stack, library link.name stack = .ok ⟨link.name, source text rest⟩) ∧
        Holds library text rest

def indents (chain : List Link) : String := String.join (chain.map Link.indent)

theorem exists_tokens_line {link : Link} (plain : link.IsPlain) (template : String) :
    ∃ tokens before, before.getD "" = link.indent ∧ tokenize template link.line = .ok tokens ∧
      tokens.map Token.unplaced =
        (inclusionLine before link.name).tokens ++ [⟨.eof, .unknown, ""⟩] := by
  obtain ⟨before, indent, blank⟩ : ∃ before : Option String, before.getD "" = link.indent ∧
      ∀ text ∈ before, text ≠ "" ∧ ∀ c ∈ text.toList, isInlineSpace c = true := by
    by_cases unindented : link.indent = ""
    · exact ⟨none, unindented.symm, by simp⟩
    · exact ⟨some link.indent, rfl, by simpa [unindented] using plain.indent⟩
  obtain ⟨tokens, read, same⟩ :=
    Program.exists_tokens_inclusionLine plain.name.toIsTagName blank template
  exact ⟨tokens, before, indent, by rwa [line, ← indent], same⟩

end Link

theorem exists_shown {template text : String} {tokens : List Token}
    (read : tokenize template text = .ok tokens) (shown : ∀ token ∈ tokens, token.isShown = true)
    (other : String) :
    ∃ others, tokenize other text = .ok others ∧ ∀ token ∈ others, token.isShown = true := by
  obtain ⟨others, further, same⟩ := tokens_elsewhere read _ _
  refine ⟨others, further, ?_⟩
  intro token member
  have unplaced := List.mem_map_of_mem (f := Token.unplaced) member
  rw [same] at unplaced
  obtain ⟨first, inside, alike⟩ := List.mem_map.mp unplaced
  rw [← Token.isShown_unplaced, ← alike]
  exact shown first inside

namespace Compile

variable {room : Nat} {text template : String}
  {tokens : List Token} {chain : List Link}

/-- A body in front of the rest of a chain writes the text at the end, with the indentations of the
chain behind its own. -/
theorem compileBody_chain (setting : Setting) (body : Body) (plain : ∀ link ∈ chain, link.IsPlain)
    (distinct : (chain.map Link.name).Nodup)
    (fresh : ∀ link ∈ chain, body.stack.contains link.name = false)
    (holds : Link.Holds setting.library text chain) (within : chain.length ≤ room)
    (read : tokenize template text = .ok tokens) (shown : ∀ token ∈ tokens, token.isShown = true)
    (noBlocks : body.blocks = []) (written : body.source = Link.source text chain) :
    ∃ events atLineStart instructions,
      compileBody setting room body = .ok (events, atLineStart) ∧ Spells events instructions ∧
      ∀ (renderer : Renderer) (bindings : Bindings),
        renderer.runAll bindings instructions = .ok (String.ofList (indentedFrom
          (body.indent ++ Link.indents chain).toList body.atLineStart text.toList)) := by
  induction chain generalizing body room with
  | nil =>
      obtain ⟨tokens, read, shown⟩ := exists_shown read shown body.stack.top.name
      have here : body.source = text := written
      rw [← here] at read
      obtain ⟨texts, atLineStart, compiled, whole⟩ :=
        compileWith_shown setting (nestedAt setting room) body noBlocks read shown
      refine ⟨_, atLineStart, _, by rw [compileBody_eq, compiled],
        Program.spells_literalEvents texts, ?_⟩
      intro renderer bindings
      have unextended : body.indent ++ Link.indents [] = body.indent := String.append_empty
      rw [Program.runAll_literals, unextended, ← here, ← whole, String.ofList_toList]
  | cons link rest ih =>
      obtain ⟨here, further⟩ := List.forall_mem_cons.mp plain
      obtain ⟨apart, others⟩ := List.nodup_cons.mp distinct
      obtain ⟨absent, unused⟩ := List.forall_mem_cons.mp fresh
      obtain ⟨held, behind⟩ := holds
      obtain ⟨deeper, rfl⟩ : ∃ deeper, room = deeper + 1 := Nat.exists_eq_succ_of_ne_zero (by
        rw [List.length_cons] at within
        omega)
      obtain ⟨line, before, indent, readLine, same⟩ :=
        Link.exists_tokens_line here body.stack.top.name
      have lineOf : body.source = link.line := written
      rw [← lineOf] at readLine
      obtain ⟨position, compiled⟩ := compileWith_inclusionLine setting
        (nestedAt setting (deeper + 1)) body noBlocks readLine same
      have found := Library.fetch_of_isPlainName here.name (held body.stack) position
      rw [indent, nestedAt, includeTemplate_found found (.inr absent)] at compiled
      let next :=
        body.enter (.start body) .inclusion ⟨link.name, Link.source text rest⟩ link.indent []
      have fresh : ∀ other ∈ rest, next.stack.contains other.name = false := by
        intro other member
        have different : link.name ≠ other.name := fun same =>
          apart (same ▸ List.mem_map_of_mem member)
        rw [show next.stack = body.stack.enter .inclusion link.name from rfl,
          TemplateStack.contains_enter, unused other member, Bool.or_false]
        simp [different]
      obtain ⟨events, atLineStart, instructions, inner, spells, renders⟩ :=
        ih next further others fresh behind (Nat.le_of_succ_le_succ within) rfl rfl
      refine ⟨_, true, _, ?_, Spells.enclose (.inclusion link.name) spells, ?_⟩
      · rw [compileBody_eq, nestedAt, compiled, inner]
        rfl
      · intro renderer bindings
        rw [Construct.close, Renderer.runAll_singleton, Renderer.run, renders]
        simp [next, Body.enter, State.start, Link.indents, String.append_assoc]

end Compile

namespace Program

open Compile

/-- A chain of partials is rendered as the text at its end, with the indentations of all the tags
that lead there in front of each line that is not empty. -/
theorem compile_chain (schema : Schema) {library : Library} {options : Options}
    {root template text : String} {chain : List Link} {tokens : List Token}
    (plain : ∀ link ∈ chain, link.IsPlain) (distinct : (root :: chain.map Link.name).Nodup)
    (holds : Link.Holds library text chain) (within : chain.length ≤ options.maxIncludeDepth)
    (read : tokenize template text = .ok tokens)
    (shown : ∀ token ∈ tokens, token.isShown = true) :
    ∃ program, Program.compile schema library options ⟨root, Link.source text chain⟩ = .ok program ∧
      ∀ (renderer : Renderer) (data : Json) (context : ContextNode),
        renderer.render program data context =
          .ok (String.ofList (indented (Link.indents chain).toList text.toList)) := by
  obtain ⟨apart, others⟩ := List.nodup_cons.mp distinct
  have fresh : ∀ link ∈ chain, (TemplateStack.root root).contains link.name = false := by
    intro link member
    have different : root ≠ link.name := fun same => apart (same ▸ List.mem_map_of_mem member)
    simp [TemplateStack.contains, TemplateStack.frames, TemplateStack.root, different]
  obtain ⟨events, atLineStart, instructions, compiled, spells, renders⟩ :=
    compileBody_chain ⟨schema, library, options⟩ (.root schema ⟨root, Link.source text chain⟩) plain
      others fresh holds within read shown rfl rfl
  refine ⟨_, compile_of_spells compiled spells, ?_⟩
  intro renderer data context
  have unindented : "" ++ Link.indents chain = Link.indents chain := String.empty_append
  rw [render_joined, renders, ← indentedFrom_true]
  simp only [Body.root, unindented]

/-- Two tags on the way to text with a carriage return by itself, empty lines of both kinds, a line
of blanks and no newline at its end. -/
theorem compile_chain_two :
    let text := "\r\r\n\r\n \n\n\"x"
    let catalog := [("a", "\t{{>b}}\n"), ("b", text)]
    ∃ program, Program.compile (.ofRoot .text) (.ofCatalog catalog) ⟨2⟩
        ⟨"main", "  {{>a}}\n"⟩ = .ok program ∧
      Renderer.plain.render program (.string "") .empty =
        .ok "  \t\r\r\n\r\n  \t \n\n  \t\"x" := by
  intro text catalog
  let chain : List Link := [⟨"  ", "a"⟩, ⟨"\t", "b"⟩]
  have plain : ∀ link ∈ chain, link.IsPlain :=
    List.forall_mem_cons.mpr ⟨⟨⟨⟨rfl, by decide⟩, by decide⟩, by simp [isInlineSpace]⟩,
      List.forall_mem_singleton.mpr ⟨⟨⟨rfl, by decide⟩, by decide⟩, by simp [isInlineSpace]⟩⟩
  have distinct : ("main" :: chain.map Link.name).Nodup := by decide
  have holds : Link.Holds (.ofCatalog catalog) text chain := ⟨fun _ => rfl, fun _ => rfl, trivial⟩
  have read : tokenize "b" text = .ok ((tokenize "b" text).toOption.getD []) := by decide +kernel
  have shown : ∀ token ∈ (tokenize "b" text).toOption.getD [], token.isShown = true := by
    decide +kernel
  have within : chain.length ≤ Options.maxIncludeDepth ⟨2⟩ := by decide
  obtain ⟨program, compiled, rendered⟩ :=
    compile_chain (.ofRoot .text) plain distinct holds within read shown
  exact ⟨program, compiled, (rendered .plain (.string "") .empty).trans (by decide +kernel)⟩

end Program

end Stencil
