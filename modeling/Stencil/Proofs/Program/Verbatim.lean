import Stencil.Proofs.Compile.Untagged
import Stencil.Proofs.Program.Concatenation

/-!
Templates without tags. Main statement: they are rendered as they are written, without their
comments and changes of delimiters.
-/

namespace Stencil

/-- Tokens that tell the reader something, and have no part in the output. -/
def Token.isSilent (token : Token) : Bool :=
  match token.kind with
  | .comment _ | .delimiters _ _ => true
  | _ => false

namespace LineToken

variable {token : Token} {tokens : List Token}

theorem join_literals {d : Delimiters} {rest : List Char} (untagged : token.tag? = none)
    (written : token.kind.IsWritten d token.raw.toList rest) :
    String.join (LineToken.of .normal token).literals =
      if token.isSilent then "" else token.raw := by
  obtain ⟨kind, position, raw⟩ := token
  dsimp only at written
  generalize same : raw.toList = text at written
  rw [← String.ofList_toList (s := raw), same]
  cases written with
  | tag _ _ _ | triple _ _ _ => cases untagged
  | comment _ | delimiters _ _ _ | eof => rfl
  | newline _ | special _ => simp [literals, LineToken.of, Token.isEof, Token.isSilent]
  | whitespace _ _ | text _ _ => simp [literals, LineToken.of, Token.isEof, Token.isSilent]

theorem join_flatMap_literals {template source : String}
    (read : tokenize template source = .ok tokens)
    (untagged : ∀ token ∈ tokens, token.tag? = none) :
    String.join ((tokens.map (LineToken.of .normal)).flatMap literals) =
      String.join ((tokens.filter fun token => !token.isSilent).map Token.raw) := by
  have written : ∀ token ∈ tokens, ∃ (d : Delimiters) (rest : List Char),
      token.kind.IsWritten d token.raw.toList rest := fun token => exists_isWritten read
  clear read
  induction tokens with
  | nil => rfl
  | cons token tokens ih =>
      obtain ⟨here, further⟩ := List.forall_mem_cons.mp untagged
      obtain ⟨⟨d, rest, first⟩, others⟩ := List.forall_mem_cons.mp written
      rw [List.map_cons, List.flatMap_cons, String.join_append, ih further others,
        join_literals here first, List.filter_cons]
      cases token.isSilent with
      | true => simp
      | false => simp

end LineToken

namespace Program

open Compile

variable {template : Template} {tokens : List Token}

theorem spells_literalEvents (texts : List String) :
    Spells (literalEvents texts) (texts.map Instruction.literal) := by
  induction texts with
  | nil => exact .nil
  | cons text texts ih => exact .literal text ih

theorem runAll_literals (renderer : Renderer) (bindings : Bindings) (texts : List String) :
    renderer.runAll bindings (texts.map Instruction.literal) = .ok (String.join texts) := by
  induction texts with
  | nil => simp [Renderer.runAll]
  | cons text texts ih => simp [Renderer.runAll, Renderer.run, ih]

/-- A template without tags can always be compiled, and is rendered as it is written, but for its
comments and changes of delimiters. -/
theorem compile_verbatim (schema : Schema) (library : Library) (options : Options)
    (template : Template)
    (read : tokenize template.name template.source = .ok tokens)
    (untagged : ∀ token ∈ tokens, token.tag? = none) :
    String.join (tokens.map Token.raw) = template.source ∧
      ∃ program, Program.compile schema library options template = .ok program ∧
        ∀ (renderer : Renderer) (data : Json) (context : ContextNode),
          renderer.render program data context =
            .ok (String.join ((tokens.filter fun token => !token.isSilent).map Token.raw)) := by
  refine ⟨?_, ?_⟩
  · apply String.toList_injective
    rw [String.toList_join, List.flatMap_map,
      ← (Lexeme.tokens_lossless Delimiters.isPlain_standard read).1]
    rfl
  · obtain ⟨atLineStart, done⟩ := compileWith_untagged ⟨schema, library, options⟩
      (nestedAt ⟨schema, library, options⟩ options.maxIncludeDepth) (.root schema template) rfl rfl
      read untagged
    rw [← compileBody_eq] at done
    refine ⟨_, compile_of_spells done (spells_literalEvents _), ?_⟩
    intro renderer data context
    rw [render_joined, runAll_literals, LineToken.join_flatMap_literals read untagged]

theorem compile_verbatim_comments :
    ∃ program, Program.compile (.ofRoot .text) (.ofCatalog []) .default
        ⟨"main", "\"\\{{! note }}\r\n{{=< >=}}\n <!\n>\tb"⟩ = .ok program ∧
      Renderer.plain.render program (.string "a") .empty = .ok "\"\\\r\n\n \tb" := by
  let first := "\"\\{{! note }}"
  let second := "{{=< >=}}"
  let tokens : List Token :=
    [⟨.special .quote, ⟨"main", 1, 1, first⟩, "\""⟩,
      ⟨.special .backslash, ⟨"main", 1, 2, first⟩, "\\"⟩,
      ⟨.comment " note ", ⟨"main", 1, 3, first⟩, "{{! note }}"⟩,
      ⟨.newline .crlf, ⟨"main", 1, 14, first⟩, "\r\n"⟩,
      ⟨.delimiters "<" ">", ⟨"main", 2, 1, second⟩, second⟩,
      ⟨.newline .lf, ⟨"main", 2, 10, second⟩, "\n"⟩,
      ⟨.whitespace " ", ⟨"main", 3, 1, " <!"⟩, " "⟩,
      ⟨.comment "\n", ⟨"main", 3, 2, " <!"⟩, "<!\n>"⟩,
      ⟨.whitespace "\t", ⟨"main", 4, 2, ">\tb"⟩, "\t"⟩, ⟨.text "b", ⟨"main", 4, 3, ">\tb"⟩, "b"⟩,
      ⟨.eof, ⟨"main", 4, 4, ">\tb"⟩, ""⟩]
  have read : tokenize "main"
      "\"\\{{! note }}\r\n{{=< >=}}\n <!\n>\tb" = .ok tokens := by
    decide +kernel
  obtain ⟨-, program, compiled, rendered⟩ :=
    compile_verbatim (.ofRoot .text) (.ofCatalog []) .default ⟨"main", _⟩ read
      (by decide +kernel)
  exact ⟨program, compiled, (rendered .plain (.string "a") .empty).trans (by decide +kernel)⟩

end Program

end Stencil
