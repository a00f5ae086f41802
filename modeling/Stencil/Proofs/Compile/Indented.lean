import Stencil.Proofs.Program.Verbatim
import Stencil.Proofs.Text.Indentation

/-!
Bodies that are all text. Main statement: what such a body writes is its text, with the indentation
of the body in front of every line that is not empty.
-/

namespace Stencil

open Lexeme Text

def Token.isShown (token : Token) : Bool := token.tag?.isNone && !token.isSilent

namespace Token

variable {token : Token}

theorem isShown_iff : token.isShown = true ↔ token.tag? = none ∧ token.isSilent = false := by
  simp [isShown]

theorem isShown_unplaced (token : Token) : token.unplaced.isShown = token.isShown := rfl

end Token

namespace Compile

variable {token : Token} {tokens : List Token} {rest : List Char}

theorem writeText_eq (body : Body) (s : State) (text : String) :
    ∃ texts, writeText body s text = (literalEvents texts, { s with atLineStart := false }) ∧
      (String.join texts).toList =
        (if s.atLineStart then body.indent.toList else []) ++ text.toList := by
  unfold writeText indentLine
  dsimp only
  by_cases due : (s.atLineStart && !body.indent.isEmpty) = true
  · rw [if_pos due]
    refine ⟨[body.indent, text], rfl, ?_⟩
    rw [Bool.and_eq_true] at due
    simp [due.1]
  · rw [if_neg due]
    refine ⟨[text], rfl, ?_⟩
    cases start : s.atLineStart with
    | false => simp
    | true =>
        have none : body.indent = "" := by simpa [start] using due
        simp [none]

theorem writeText_inline {cs : List Char} (body : Body) (s : State) (content : String)
    (same : content.toList = cs) (filled : cs ≠ []) (inline : '\n' ∉ cs)
    (apart : cs.getLast? = some '\r' → rest.head? ≠ some '\n') :
    ∃ texts, writeText body s content = (literalEvents texts, { s with atLineStart := false }) ∧
      indentedFrom body.indent.toList s.atLineStart (cs ++ rest) =
        (String.join texts).toList ++ indentedFrom body.indent.toList false rest := by
  obtain ⟨texts, events, whole⟩ := writeText_eq body s content
  exact ⟨texts, events, by rw [indentedFrom_append filled inline apart, whole, same]⟩

theorem readPlain_shown (setting : Setting) (nested? : Option Nested) (body : Body) (s : State)
    (reads : Reads token rest) (shown : token.isShown = true) :
    ∃ texts atLineStart, readPlain setting nested? body s (.of .normal token) =
        .ok (literalEvents texts, { s with atLineStart }) ∧
      indentedFrom body.indent.toList s.atLineStart (token.raw.toList ++ rest) =
        (String.join texts).toList ++ indentedFrom body.indent.toList atLineStart rest := by
  have written := reads.isWritten
  obtain ⟨kind, position, raw⟩ := token
  dsimp only at written ⊢
  generalize raw.toList = cs at written
  cases written with
  | tag _ _ _ | triple _ _ _ => cases shown
  | comment _ | delimiters _ _ _ => cases shown
  | newline ending =>
      refine ⟨[ending.text], true, rfl, ?_⟩
      rw [indentedFrom_newline]
      simp
  | special mark =>
      have apart : mark.text.toList.getLast? = some '\r' → rest.head? ≠ some '\n' := by
        cases mark <;> simp [SpecialMark.text]
      obtain ⟨texts, events, whole⟩ := writeText_inline body s mark.text rfl
        (by cases mark <;> decide) (by cases mark <;> decide) apart
      exact ⟨texts, false, congrArg Except.ok events, whole⟩
  | whitespace filled each =>
      have inline : '\n' ∉ cs := fun member => by
        obtain space | tab := each _ member <;> contradiction
      have apart : cs.getLast? = some '\r' → rest.head? ≠ some '\n' := fun last => by
        obtain space | tab := each _ (List.mem_of_getLast? last) <;> contradiction
      obtain ⟨texts, events, whole⟩ :=
        writeText_inline body s _ String.toList_ofList filled inline apart
      exact ⟨texts, false, congrArg Except.ok events, whole⟩
  | text filled each =>
      have inline : '\n' ∉ cs := by
        intro member
        obtain ⟨front, back, split⟩ := List.append_of_mem member
        exact (each front '\n' back split).2.2.1 rfl
      have apart : cs.getLast? = some '\r' → rest.head? ≠ some '\n' := by
        intro last
        obtain ⟨front, split⟩ := List.getLast?_eq_some_iff.mp last
        exact (each front '\r' [] split).2.2.2.2.2.1 rfl
      obtain ⟨texts, events, whole⟩ :=
        writeText_inline body s _ String.toList_ofList filled inline apart
      exact ⟨texts, false, congrArg Except.ok events, whole⟩
  | eof => exact ⟨[], s.atLineStart, rfl, by simp⟩

theorem runAll_shown (setting : Setting) (nested? : Option Nested) (body : Body) {s : State}
    (normal : s.mode = .normal) (reads : ReadsAll tokens rest)
    (shown : ∀ token ∈ tokens, token.isShown = true) :
    ∃ texts atLineStart,
      runAll (readToken setting nested? body false false) s (tokens.map (LineToken.of .normal)) =
        .ok (literalEvents texts, { s with atLineStart }) ∧
      indentedFrom body.indent.toList s.atLineStart (chars tokens ++ rest) =
        (String.join texts).toList ++ indentedFrom body.indent.toList atLineStart rest := by
  induction reads generalizing s with
  | nil => exact ⟨[], s.atLineStart, rfl, by simp [chars_nil]⟩
  | @cons token tokens rest here _ ih =>
      obtain ⟨first, others⟩ := List.forall_mem_cons.mp shown
      obtain ⟨texts, middle, read, written⟩ :=
        readPlain_shown setting nested? body s here first
      have still : { s with atLineStart := middle }.mode = .normal := normal
      obtain ⟨more, last, run, rest⟩ := ih still others
      refine ⟨texts ++ more, last, ?_, ?_⟩
      · rw [List.map_cons, runAll, readToken_normal normal, read, ok_bind]
        simp only [run, ok_bind, pure_eq_ok]
        rw [literalEvents, literalEvents, literalEvents, List.map_append]
      · rw [chars_cons, List.append_assoc, written, rest, String.join_append]
        simp

theorem compileWith_shown (setting : Setting) (nested? : Option Nested) (body : Body)
    (noBlocks : body.blocks = []) (read : tokenize body.stack.top.name body.source = .ok tokens)
    (shown : ∀ token ∈ tokens, token.isShown = true) :
    ∃ texts atLineStart, compileWith setting nested? body = .ok (literalEvents texts, atLineStart) ∧
      (String.join texts).toList =
        indentedFrom body.indent.toList body.atLineStart body.source.toList := by
  have untagged : ∀ token ∈ tokens, token.tag? = none :=
    fun token member => (Token.isShown_iff.mp (shown token member)).1
  obtain ⟨front, position, rfl, whole, reads⟩ := readsAll_of_tokenize read (by
    intro token member opening closing change
    have loud := (Token.isShown_iff.mp (shown token member)).2
    simp [Token.isSilent, change] at loud)
  obtain ⟨texts, atLineStart, run, written⟩ :=
    runAll_shown setting nested? body (rfl : (State.start body).mode = .normal) reads
      (fun token member => shown token (List.mem_append_left _ member))
  refine ⟨texts, atLineStart, ?_, ?_⟩
  · have ended : readToken setting nested? body false false { State.start body with atLineStart }
        (.of .normal ⟨.eof, position, ""⟩) = .ok ([], { State.start body with atLineStart }) :=
      rfl
    rw [compileWith_flat setting nested? body noBlocks read untagged, List.map_append,
      runAll_append, run]
    simp only [ok_bind, List.map_singleton, runAll_singleton, ended, pure_eq_ok, List.append_nil]
    rfl
  · rw [List.append_nil, whole, indentedFrom_nil, List.append_nil] at written
    exact written.symm

end Compile

end Stencil
