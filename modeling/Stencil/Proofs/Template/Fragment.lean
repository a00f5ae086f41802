import Mathlib.Data.List.Forall2
import Stencil.Proofs.Template.FragmentSearch
import Stencil.Proofs.Token.Excerpt
import Stencil.Proofs.Token.Places

/-!
What a fragment is. Main statements: its text is what stands between its tags, without the
indentation of the opening tag if all lines have it, and it comes to the tokens that stand there, if
the standard delimiters are in force where it opens.
-/

namespace Stencil

namespace Text

/-- A line, and what is left of it when it loses an indentation that it may not have. -/
inductive Stripped (mark : List Char) : List Char → List Char → Prop where
  | marked (rest : List Char) : Stripped mark (mark ++ rest) rest
  | unmarked {line : List Char} : ¬ mark <+: line → Stripped mark line line

/-- Whether all lines of a text but for blank ones have an indentation. -/
def Shares (mark text : List Char) : Prop :=
  ∀ line ∈ keptLines text, (∀ c ∈ line, isBlank c = true) ∨ mark <+: line

theorem stripped_after? (mark line : List Char) :
    Stripped mark line ((after? mark line).getD line) := by
  cases found : after? mark line with
  | some rest =>
      rw [← append_of_after? found]
      exact .marked rest
  | none =>
      refine .unmarked ?_
      rintro ⟨rest, rfl⟩
      cases found.symm.trans (after?_append mark rest)

end Text

namespace Fragment

open LineClassifier Text Token

/-- A text, and the same without an indentation, if its lines share it. -/
structure Outdented (indent body result : String) : Prop where
  shared : Shares indent.toList body.toList → ∃ lines,
    List.Forall₂ (Stripped indent.toList) (keptLines body.toList) lines ∧
      result.toList = lines.flatten
  unshared : ¬ Shares indent.toList body.toList → result = body

theorem shares_iff (body indent : String) :
    ((keptLines body.toList).all fun line =>
      line.all isBlank || indent.toList.isPrefixOf line) = true ↔
        Shares indent.toList body.toList := by
  simp only [List.all_eq_true, Bool.or_eq_true, List.isPrefixOf_iff_prefix, Shares]

theorem outdented_outdent (body indent : String) :
    Outdented indent body (outdent body indent) := by
  constructor
  · intro shared
    refine ⟨(keptLines body.toList).map fun line => (after? indent.toList line).getD line, ?_, ?_⟩
    · rw [List.forall₂_map_right_iff, List.forall₂_same]
      exact fun line _ => stripped_after? indent.toList line
    · rw [outdent, if_pos ((shares_iff body indent).mpr shared), String.toList_ofList, List.flatMap]
  · intro unshared
    rw [outdent, if_neg fun shared => unshared ((shares_iff body indent).mp shared)]

theorem outdent_empty (body : String) : outdent body "" = body := by
  have kept : (keptLines body.toList).flatMap (fun line => (after? [] line).getD line) =
      body.toList := by
    rw [List.flatMap, show (fun line => (after? [] line).getD line) = id from rfl, List.map_id,
      flatten_keptLines]
  rw [outdent]
  split
  · rw [show "".toList = [] from rfl, kept, String.ofList_toList]
  · rfl

theorem find?_of_tokenize {template source : String} {tokens : List Token}
    (read : tokenize template source = .ok tokens) (name : String) :
    find? template source name =
      .ok ((groupsOf tokens).foldl (Search.group name) .start).found := by
  rw [find?, read, ok_bind]
  rfl

theorem between_infix (front : List Token) (opening : Token) (inner : List Token) (closing : Token)
    (behind : List Token) : between front opening inner closing behind <:+: inner := by
  have kept : (if isAlone front (inner ++ closing :: behind) then
      (inner.dropWhile isWhitespace).drop 1 else inner) <:+: inner := by
    split
    · exact ((List.drop_suffix _ _).trans (List.dropWhile_suffix _)).isInfix
    · exact List.infix_rfl
  rw [between]
  split
  · exact (List.rdropWhile_prefix _ _).isInfix.trans kept
  · exact kept

theorem exists_around {template source : String} {front inner behind : List Token}
    {opening closing : Token}
    (read : tokenize template source = .ok (front ++ opening :: (inner ++ closing :: behind))) :
    ∃ before after,
      source = before ++ text (between front opening inner closing behind) ++ after := by
  obtain ⟨left, right, parts⟩ := between_infix front opening inner closing behind
  obtain ⟨whole, -, -⟩ := tokenize_places read
  refine ⟨text (front ++ opening :: left), text (right ++ closing :: behind), ?_⟩
  rw [← whole, join_raw, ← text_append, ← text_append]
  congr 1
  calc front ++ opening :: (inner ++ closing :: behind)
    _ = front ++ opening :: ((left ++ between front opening inner closing behind ++ right) ++
        closing :: behind) := by rw [parts]
    _ = _ := by simp only [List.append_assoc, List.cons_append]

/-- A fragment is what stands between its tags, without the indentation of the opening tag if the
lines of the fragment share it. -/
theorem find?_fragment {template source : String} {tokens : List Token}
    (read : tokenize template source = .ok tokens) (name : String) :
    (∀ front opening inner closing behind, Located name tokens front opening inner closing behind →
      ∃ result, find? template source name = .ok (some result) ∧
        Outdented (text (indentation front (inner ++ closing :: behind)))
          (text (between front opening inner closing behind)) result ∧
        (indentation front (inner ++ closing :: behind) = [] →
          ∃ before after, source = before ++ result ++ after)) ∧
    ((∀ front opening inner closing behind,
        ¬ Located name tokens front opening inner closing behind) →
      find? template source name = .ok none) := by
  have ends := endsOnce_of_tokenize read
  refine ⟨fun front opening inner closing behind located => ?_, fun missing => ?_⟩
  · have found := (find?_of_tokenize read name).trans (congrArg Except.ok (located.found_eq ends))
    refine ⟨_, found, outdented_outdent _ _, fun unindented => ?_⟩
    obtain rfl := located.split
    rw [unindented, text_nil, outdent_empty]
    exact exists_around read
  · rw [find?_of_tokenize read, found_eq_none ends missing]

theorem find?_fragment_indented :
    ∃ (source result : String) (tokens front inner behind : List Token) (opening closing : Token),
      source = "  {{#a}}\n   {{^b}}x{{/b}}\n\n  {{/a}}" ∧
        result = " {{^b}}x{{/b}}\n\n" ∧
        tokenize "page" source = .ok tokens ∧
        Located "a" tokens front opening inner closing behind ∧
        text (indentation front (inner ++ closing :: behind)) = "  " ∧
        text (between front opening inner closing behind) =
          "   {{^b}}x{{/b}}\n\n" ∧
        find? "page" source "a" = .ok (some result) ∧
        Outdented (text (indentation front (inner ++ closing :: behind)))
          (text (between front opening inner closing behind)) result := by
  let source := "  {{#a}}\n   {{^b}}x{{/b}}\n\n  {{/a}}"
  let opens := "  {{#a}}"
  let line := "   {{^b}}x{{/b}}"
  let closes := "  {{/a}}"
  let place (line column : Nat) (text : String) : Position := ⟨"page", line, column, text⟩
  let front : List Token := [⟨.whitespace "  ", place 1 1 opens, "  "⟩]
  let opening : Token := ⟨.tag .openSection "a", place 1 3 opens, "{{#a}}"⟩
  let inner : List Token :=
    [⟨.newline .lf, place 1 9 opens, "\n"⟩, ⟨.whitespace "   ", place 2 1 line, "   "⟩,
      ⟨.tag .openInverted "b", place 2 4 line, "{{^b}}"⟩,
      ⟨.text "x", place 2 10 line, "x"⟩, ⟨.tag .close "b", place 2 11 line, "{{/b}}"⟩,
      ⟨.newline .lf, place 2 17 line, "\n"⟩,
      ⟨.newline .lf, place 3 1 "", "\n"⟩, ⟨.whitespace "  ", place 4 1 closes, "  "⟩]
  let closing : Token := ⟨.tag .close "a", place 4 3 closes, "{{/a}}"⟩
  let behind : List Token := [⟨.eof, place 4 9 closes, ""⟩]
  have read : tokenize "page" source = .ok (front ++ opening :: (inner ++ closing :: behind)) :=
    eq_ok_of_toOption (by decide +kernel)
  have located : Located "a" (front ++ opening :: (inner ++ closing :: behind)) front opening inner
      closing behind := by decide +kernel
  obtain ⟨result, found, outdented, -⟩ := (find?_fragment read "a").1 _ _ _ _ _ located
  have computed : find? "page" source "a" = .ok (some " {{^b}}x{{/b}}\n\n") :=
    eq_ok_of_toOption (by decide +kernel)
  obtain rfl := Option.some.inj (Except.ok.inj (found.symm.trans computed))
  exact ⟨source, _, _, front, inner, behind, opening, closing, rfl, rfl, read, located,
    by decide +kernel, by decide +kernel, found, outdented⟩

/-- A fragment keeps its meaning if its opening tag is not indented and the standard delimiters are
in force there. -/
theorem tokenize_fragment {template source name : String} {tokens front inner behind : List Token}
    {opening closing : Token} (read : tokenize template source = .ok tokens)
    (located : Located name tokens front opening inner closing behind)
    (unindented : indentation front (inner ++ closing :: behind) = [])
    (standard : inForce Delimiters.standard.texts front = Delimiters.standard.texts)
    (other : String) :
    ∃ body again, find? template source name = .ok (some body) ∧ tokenize other body = .ok again ∧
      again.map Token.kind =
        (between front opening inner closing behind).map Token.kind ++ [.eof] := by
  have found := (find?_of_tokenize read name).trans
    (congrArg Except.ok (located.found_eq (endsOnce_of_tokenize read)))
  rw [unindented, text_nil, outdent_empty] at found
  obtain rfl := located.split
  obtain ⟨endName, closes⟩ := located.isEnd
  obtain ⟨kind, opens⟩ : ∃ kind, opening.kind = .tag kind name :=
    located.selects.elim (fun opens => ⟨_, opens⟩) fun opens => ⟨_, opens⟩
  obtain ⟨again, reads, same⟩ := tokenize_between read opens closes standard other
  exact ⟨_, again, found, reads, same⟩

theorem tokenize_fragment_behind_delimiters :
    ∃ (source body : String) (tokens front inner behind again : List Token)
      (opening closing : Token),
      source = "{{=<% %>=}}<%={{ }}=%>\n{{#a}}\n{{x}}{{/a}}" ∧
        body = "{{x}}" ∧ tokenize "page" source = .ok tokens ∧
        Located "a" tokens front opening inner closing behind ∧
        indentation front (inner ++ closing :: behind) = [] ∧
        inForce Delimiters.standard.texts front = Delimiters.standard.texts ∧
        find? "page" source "a" = .ok (some body) ∧ tokenize "page#a" body = .ok again ∧
        again.map Token.kind =
          (between front opening inner closing behind).map Token.kind ++ [.eof] := by
  let source := "{{=<% %>=}}<%={{ }}=%>\n{{#a}}\n{{x}}{{/a}}"
  let braces := Delimiters.standard.texts
  let change := "{{=<% %>=}}<%={{ }}=%>"
  let last := "{{x}}{{/a}}"
  let place (line column : Nat) (text : String) : Position := ⟨"page", line, column, text⟩
  let front : List Token :=
    [⟨.delimiters "<%" "%>", place 1 1 change, "{{=<% %>=}}"⟩,
      ⟨.delimiters braces.1 braces.2, place 1 12 change, "<%={{ }}=%>"⟩,
      ⟨.newline .lf, place 1 23 change, "\n"⟩]
  let opening : Token := ⟨.tag .openSection "a", place 2 1 "{{#a}}", "{{#a}}"⟩
  let inner : List Token :=
    [⟨.newline .lf, place 2 7 "{{#a}}", "\n"⟩, ⟨.tag .escaped "x", place 3 1 last, "{{x}}"⟩]
  let closing : Token := ⟨.tag .close "a", place 3 6 last, "{{/a}}"⟩
  let behind : List Token := [⟨.eof, place 3 12 last, ""⟩]
  have read : tokenize "page" source = .ok (front ++ opening :: (inner ++ closing :: behind)) :=
    eq_ok_of_toOption (by decide +kernel)
  have located : Located "a" (front ++ opening :: (inner ++ closing :: behind)) front opening inner
      closing behind := by decide +kernel
  have unindented : indentation front (inner ++ closing :: behind) = [] := by decide +kernel
  have standard : inForce Delimiters.standard.texts front = Delimiters.standard.texts := by
    decide +kernel
  obtain ⟨body, again, found, reads, same⟩ :=
    tokenize_fragment read located unindented standard "page#a"
  have computed : find? "page" source "a" = .ok (some "{{x}}") :=
    eq_ok_of_toOption (by decide +kernel)
  obtain rfl := Option.some.inj (Except.ok.inj (found.symm.trans computed))
  exact ⟨source, _, _, front, inner, behind, again, opening, closing, rfl, rfl, read, located,
    unindented, standard, found, reads, same⟩

/-- The text of a fragment does not say which delimiters were in force. -/
theorem tokenize_fragment_other_delimiters :
    ∃ (body : String) (tokens front inner behind again : List Token) (opening closing : Token),
      tokenize "page" "{{=<% %>=}}<%#a%><%x%><%/a%>" = .ok tokens ∧
        Located "a" tokens front opening inner closing behind ∧
        indentation front (inner ++ closing :: behind) = [] ∧
        find? "page" "{{=<% %>=}}<%#a%><%x%><%/a%>" "a" = .ok (some body) ∧
        tokenize "page#a" body = .ok again ∧
        again.map Token.kind ≠
          (between front opening inner closing behind).map Token.kind ++ [.eof] := by
  let place (column : Nat) : Position := ⟨"page", 1, column, "{{=<% %>=}}<%#a%><%x%><%/a%>"⟩
  let change : Token := ⟨.delimiters "<%" "%>", place 1, "{{=<% %>=}}"⟩
  let opening : Token := ⟨.tag .openSection "a", place 12, "<%#a%>"⟩
  let value : Token := ⟨.tag .escaped "x", place 18, "<%x%>"⟩
  let closing : Token := ⟨.tag .close "a", place 23, "<%/a%>"⟩
  let text : Token := ⟨.text "<%x%>", ⟨"page#a", 1, 1, "<%x%>"⟩, "<%x%>"⟩
  exact ⟨"<%x%>", [change, opening, value, closing, ⟨.eof, place 29, ""⟩], [change], [value],
    [⟨.eof, place 29, ""⟩], [text, ⟨.eof, ⟨"page#a", 1, 6, "<%x%>"⟩, ""⟩], opening, closing,
    eq_ok_of_toOption (by decide +kernel), by decide +kernel, by decide +kernel,
    eq_ok_of_toOption (by decide +kernel), eq_ok_of_toOption (by decide +kernel), by decide⟩

end Fragment

end Stencil
