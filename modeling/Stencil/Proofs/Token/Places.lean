import Mathlib.Data.List.DropRight
import Stencil.Proofs.Text.Indentation
import Stencil.Proofs.Text.Splitting
import Stencil.Proofs.Token.Written

/-!
The places of tokens. Main statement: the raw texts of the tokens are the template, and the place of
a token can be counted off the template where the token stands in it.
-/

namespace Stencil

namespace Text

variable {c : Char} {before after cs : List Char}

def openLine (cs : List Char) : List Char := cs.rtakeWhile (· ≠ '\n')

def restOfLine (cs : List Char) : List Char := cs.takeWhile (· ≠ '\n')

theorem openLine_newline (cs : List Char) : openLine (cs ++ ['\n']) = [] :=
  List.rtakeWhile_concat_neg _ cs '\n' (by simp)

theorem openLine_concat (inline : c ≠ '\n') (cs : List Char) :
    openLine (cs ++ [c]) = openLine cs ++ [c] :=
  List.rtakeWhile_concat_pos _ cs c (decide_eq_true inline)

theorem restOfLine_cons (inline : c ≠ '\n') (cs : List Char) :
    restOfLine (c :: cs) = c :: restOfLine cs :=
  List.takeWhile_cons_of_pos (decide_eq_true inline)

theorem exists_lines (cs : List Char) : ∃ more, lines cs = restOfLine cs :: more := by
  induction cs with
  | nil => exact ⟨[], rfl⟩
  | cons c rest ih =>
      by_cases newline : c = '\n'
      · subst newline
        exact ⟨lines rest, rfl⟩
      · obtain ⟨more, cut⟩ := ih
        have inline : '\n' ∉ [c] := by simpa [eq_comm] using newline
        refine ⟨more, ?_⟩
        rw [restOfLine_cons newline]
        exact lines_append inline cut

theorem lines_append_newline (before after : List Char) :
    lines (before ++ '\n' :: after) = lines before ++ lines after :=
  splitOn_separator before after

theorem length_lines (cs : List Char) : (lines cs).length = cs.count '\n' + 1 := by
  induction cs with
  | nil => rfl
  | cons c rest ih =>
      by_cases newline : c = '\n'
      · subst newline
        rw [lines_newline, List.length_cons, ih, List.count_cons_self]
      · obtain ⟨more, cut⟩ := exists_lines rest
        have inline : '\n' ∉ [c] := by simpa [eq_comm] using newline
        have here : lines (c :: rest) = (c :: restOfLine rest) :: more := lines_append inline cut
        rw [cut] at ih
        rw [here, List.count_cons_of_ne newline]
        exact ih

theorem getElem?_lines (before after : List Char) :
    (lines (before ++ after))[before.count '\n']? = some (openLine before ++ restOfLine after) := by
  induction before using List.reverseRecOn generalizing after with
  | nil =>
      obtain ⟨more, cut⟩ := exists_lines after
      rw [List.nil_append, cut]
      rfl
  | append_singleton before c ih =>
      rw [List.append_assoc, List.singleton_append, List.count_append]
      by_cases newline : c = '\n'
      · subst newline
        obtain ⟨more, cut⟩ := exists_lines after
        have passed : (lines before).length = before.count '\n' + List.count '\n' ['\n'] :=
          length_lines before
        rw [lines_append_newline, openLine_newline, ← passed, List.getElem?_append_right le_rfl,
          Nat.sub_self, cut]
        rfl
      · have none : List.count '\n' [c] = 0 :=
          List.count_eq_zero.mpr (by simpa [eq_comm] using newline)
        rw [none, Nat.add_zero, ih, restOfLine_cons newline, openLine_concat newline,
          List.append_assoc, List.singleton_append]

end Text

open Text

theorem Cursor.advance_append (cursor : Cursor) (first second : List Char) :
    cursor.advance (first ++ second) = (cursor.advance first).advance second :=
  List.foldl_append

theorem Cursor.advance_start (cs : List Char) :
    start.advance cs = ⟨1 + cs.count '\n', 1 + (openLine cs).length⟩ := by
  induction cs using List.reverseRecOn with
  | nil => rfl
  | append_singleton cs c ih =>
      rw [advance_append, ih]
      by_cases newline : c = '\n'
      · subst newline
        rw [openLine_newline, List.count_append]
        rfl
      · have none : List.count '\n' [c] = 0 :=
          List.count_eq_zero.mpr (by simpa [eq_comm] using newline)
        rw [openLine_concat newline, List.count_append, none, List.length_append]
        simp [advance, step, newline, Nat.add_assoc]

/-- The place between two parts of a template, counted off the text: lines by the line feeds in
front of it, columns by the characters on the line so far. -/
def Position.between (template : String) (before after : List Char) : Position :=
  ⟨template, 1 + before.count '\n', 1 + (openLine before).length,
    String.ofList (dropReturn (openLine before ++ restOfLine after))⟩

theorem Cursor.position_between (template : String) (before after : List Char) :
    position template
        ((lines (before ++ after)).map fun line => String.ofList (dropReturn line)).toArray
        (start.advance before) = .between template before after := by
  have line := getElem?_lines before after
  rw [advance_start]
  simp [position, Position.between, line]

open Lexeme

/-- Nothing of a template is lost when it is read, its end is marked once, and every token stands
where its characters stand. -/
theorem tokenize_places {template source : String} {tokens : List Token}
    (read : tokenize template source = .ok tokens) :
    String.join (tokens.map Token.raw) = source ∧
      (∃ body position, tokens = body ++ [⟨.eof, position, ""⟩] ∧
        ∀ token ∈ body, token.kind ≠ .eof) ∧
      ∀ before token after, tokens = before ++ token :: after →
        token.position = .between template (chars before) (chars (token :: after)) := by
  obtain ⟨whole, ending⟩ := tokens_lossless Delimiters.isPlain_standard read
  refine ⟨?_, ending, ?_⟩
  · apply String.toList_injective
    rw [String.toList_join, List.flatMap_map, ← whole]
    rfl
  · rintro before token after rfl
    have parts : source.toList = chars before ++ chars (token :: after) := by
      rw [← whole, chars_append]
    obtain ⟨inside, -, -, reads⟩ := tokens_behind Delimiters.isPlain_standard (by simp) read
    have here : token.position =
        Cursor.position template
          ((lines source.toList).map fun line => String.ofList (dropReturn line)).toArray
          (Cursor.start.advance (chars before)) := by
      obtain ⟨-, same⟩ | ⟨c, rest, l, later, -, -, -, same⟩ := tokens_cases reads
      · rw [(List.cons.inj same).1]
      · rw [(List.cons.inj same).1]
    rw [here, parts]
    exact Cursor.position_between template (chars before) (chars (token :: after))

theorem tokenize_places_crossing :
    ∃ source before token after,
      source = "{{=< >=}}\r\n<!\n><b>\r\n" ∧
        tokenize "page" source = .ok (before ++ token :: after) ∧
        String.join ((before ++ token :: after).map Token.raw) = source ∧
        token.kind = .tag .escaped "b" ∧ token.position = ⟨"page", 3, 2, "><b>"⟩ := by
  let before : List Token := [⟨.delimiters "<" ">", ⟨"page", 1, 1, "{{=< >=}}"⟩, "{{=< >=}}"⟩,
    ⟨.newline .crlf, ⟨"page", 1, 10, "{{=< >=}}"⟩, "\r\n"⟩,
    ⟨.comment "\n", ⟨"page", 2, 1, "<!"⟩, "<!\n>"⟩]
  let token : Token := ⟨.tag .escaped "b", ⟨"page", 3, 2, "><b>"⟩, "<b>"⟩
  let after : List Token :=
    [⟨.newline .crlf, ⟨"page", 3, 5, "><b>"⟩, "\r\n"⟩, ⟨.eof, ⟨"page", 4, 1, ""⟩, ""⟩]
  have read : tokenize "page" "{{=< >=}}\r\n<!\n><b>\r\n" = .ok (before ++ token :: after) := by
    decide +kernel
  obtain ⟨whole, -, places⟩ := tokenize_places read
  refine ⟨_, before, token, after, rfl, read, whole, rfl, ?_⟩
  exact (places before token after rfl).trans (by decide +kernel)

end Stencil
