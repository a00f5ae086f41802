import Stencil.Proofs.Compile.Unplaced
import Stencil.Proofs.Token.Written

/-!
Templates put one behind the other. Main statement: behind a line feed, the tokens of a template and
the groups that they make are those it has by itself.
-/

namespace Stencil

namespace Lexeme

variable {token : Token} {tokens front : List Token} {place : Cursor → Position}
  {cursor : Cursor} {d : Delimiters} {cs rest : List Char}

theorem Agree.of_newline (read rest other : List Char) :
    Agree read ('\n' :: rest) ('\n' :: other) := by
  refine ⟨?_, rfl⟩
  intro last _
  obtain _ | ⟨c, last⟩ := last
  · rfl
  · rw [endsText_take, endsText_take (c :: last ++ _)]
    cases last <;> rfl

theorem getLast?_closing (plainly : d.IsPlain) (front : List Char) :
    (front ++ d.closing).getLast? ≠ some '\n' := by
  intro ends
  rw [List.getLast?_append_of_ne_nil _ d.closing_ne_nil] at ends
  have letter := (plainly '\n' (List.mem_append_right _ (List.mem_of_getLast? ends))).1
  cases letter

theorem newline_of_isWritten {kind : TokenKind} {raw : List Char} (plainly : d.IsPlain)
    (written : kind.IsWritten d raw rest) (ends : raw.getLast? = some '\n') :
    ∃ ending, kind = .newline ending := by
  cases written with
  | newline ending => exact ⟨ending, rfl⟩
  | tag _ _ _ | comment _ => exact absurd ends (getLast?_closing plainly _)
  | triple _ _ _ | delimiters _ _ _ =>
      rw [List.append_cons] at ends
      exact absurd ends (getLast?_closing plainly _)
  | special mark => cases mark <;> cases ends
  | whitespace filled each =>
      obtain space | tab := each _ (List.mem_of_getLast? ends)
      · cases space
      · cases tab
  | text filled each =>
      obtain ⟨front, rfl⟩ := List.getLast?_eq_some_iff.mp ends
      exact absurd rfl (each front '\n' [] rfl).2.2.1
  | eof => cases ends

theorem Reads.isWritten (reads : Reads token rest) :
    token.kind.IsWritten .standard token.raw.toList rest := by
  obtain ⟨c, more, raw, read⟩ := reads
  have written := (isRead_of_ahead Delimiters.isPlain_standard read).written
  rwa [raw]

theorem reads_newline {ending : LineEnding} (newline : token.kind = .newline ending)
    (raw : token.raw.toList = ending.text.toList) (rest : List Char) : Reads token rest := by
  cases ending with
  | lf => exact ⟨'\n', [], raw, by rw [newline]; rfl⟩
  | crlf => exact ⟨'\r', ['\n'], raw, by rw [newline]; rfl⟩

theorem ReadsAll.in_front (reads : ReadsAll (front ++ [token]) []) {ending : LineEnding}
    (newline : token.kind = .newline ending) (other : List Char) :
    ReadsAll (front ++ [token]) other := by
  obtain ⟨before, last⟩ := reads.of_append
  obtain _ | ⟨here, -⟩ := last
  have written := here.isWritten
  rw [newline] at written
  have raw : token.raw.toList = ending.text.toList := by
    generalize token.raw.toList = cs at written
    cases written
    rfl
  refine .append (before.agree ?_) (.cons (reads_newline newline raw _) .nil)
  rw [chars_cons, chars_nil, raw]
  cases ending with
  | lf => exact .of_newline _ [] other
  | crlf => exact .of_take (show ['\r', '\n'].take 2 = ('\r' :: '\n' :: other).take 2 from rfl) _

theorem ReadsAll.exists_newline (reads : ReadsAll tokens [])
    (ends : (chars tokens).getLast? = some '\n') :
    ∃ body newline ending, tokens = body ++ [newline] ∧ newline.kind = .newline ending := by
  obtain rfl | ⟨body, newline, rfl⟩ := tokens.eq_nil_or_concat'
  · cases ends
  · obtain ⟨-, last⟩ := reads.of_append
    obtain _ | ⟨here, -⟩ := last
    have raw : newline.raw.toList.getLast? = some '\n' := by
      rw [chars_append, chars_cons, chars_nil, List.append_nil] at ends
      obtain ⟨c, more, raw, -⟩ := here
      rwa [List.getLast?_append_of_ne_nil _ (by simp [raw])] at ends
    obtain ⟨ending, kind⟩ := newline_of_isWritten Delimiters.isPlain_standard here.isWritten raw
    exact ⟨body, newline, ending, rfl, kind⟩

theorem tokens_elsewhere (read : Lexeme.tokens place d cursor cs = .ok tokens)
    (otherPlace : Cursor → Position) (otherCursor : Cursor) :
    ∃ others, Lexeme.tokens otherPlace d otherCursor cs = .ok others ∧
      others.map Token.unplaced = tokens.map Token.unplaced := by
  fun_induction Lexeme.tokens place d cursor cs generalizing tokens otherCursor with
  | case1 d cursor =>
      cases read
      exact ⟨[⟨.eof, otherPlace otherCursor, ""⟩], by rw [Lexeme.tokens], rfl⟩
  | case2 => cases read
  | case3 => cases read
  | case4 d cursor c rest l ahead later more ih =>
      cases read
      obtain ⟨others, further, same⟩ := ih more (otherCursor.advance l.raw)
      refine ⟨_, tokens_cons ahead further, ?_⟩
      rw [List.map_cons, same]
      rfl

end Lexeme

open Lexeme

theorem endsOnce_of_tokenize {template source : String} {tokens : List Token}
    (read : tokenize template source = .ok tokens) : Token.EndsOnce tokens := by
  obtain ⟨-, body, position, rfl, inside⟩ := tokens_lossless Delimiters.isPlain_standard read
  refine ⟨body, _, rfl, rfl, ?_⟩
  intro token member
  exact eq_false_of_ne_true (mt Token.isEof_iff.mp (inside token member))

theorem tokenize_append {template first second : String} {before after : List Token}
    (readFirst : tokenize template first = .ok before)
    (unchanged : ∀ token ∈ before, ∀ opening closing, token.kind ≠ .delimiters opening closing)
    (ends : first.toList.getLast? = some '\n') (readSecond : tokenize template second = .ok after) :
    ∃ body newline ending front others, before = body ++ [newline] ++ [ending] ∧
      newline.isNewline = true ∧ ending.isEof = true ∧
      tokenize template (first ++ second) = .ok (front ++ others) ∧
      front.map Token.unplaced = (body ++ [newline]).map Token.unplaced ∧
      others.map Token.unplaced = after.map Token.unplaced := by
  obtain ⟨tokens, position, rfl, whole, reads⟩ := readsAll_of_tokenize readFirst unchanged
  rw [← whole] at ends
  obtain ⟨body, newline, ending, rfl, kind⟩ := reads.exists_newline ends
  have joined := reads.in_front kind second.toList
  obtain ⟨others, further, same⟩ := tokens_elsewhere readSecond _ _
  obtain ⟨front, tokenized, alike⟩ := tokens_append joined further
  have isNewline : newline.isNewline = true := Token.isNewline_iff.mpr ⟨ending, kind⟩
  refine ⟨body, newline, _, front, others, rfl, isNewline, rfl, ?_, alike, same⟩
  rw [tokenize, String.toList_append, ← whole]
  exact tokenized

namespace LineClassifier

variable {token : Token} {front more : List Token} {atLineStart next : Bool} {group : LineGroup}

theorem lineRoles?_line (newline : token.isNewline = true) (front more : List Token) :
    lineRoles? (front ++ token :: more) = lineRoles? (front ++ [token]) := by
  have tag : token.isStandalone = false := by
    by_contra standalone
    have inside := Token.endsLine_of_isStandalone (eq_true_of_ne_false standalone)
    simp [Token.endsLine, newline] at inside
  have blank : token.isWhitespace = false := by
    by_contra whitespace
    have inside := Token.endsLine_of_isWhitespace (eq_true_of_ne_false whitespace)
    simp [Token.endsLine, newline] at inside
  have ends : token.endsLine = true := by simp [Token.endsLine, newline]
  obtain _ | ⟨first, _ | ⟨second, _ | ⟨third, rest⟩⟩⟩ := front
  · obtain _ | ⟨second, _ | ⟨third, _ | ⟨fourth, more⟩⟩⟩ := more <;>
      simp [lineRoles?, newline, tag, blank]
  · obtain _ | ⟨third, _ | ⟨fourth, more⟩⟩ := more <;>
      simp [lineRoles?, tag, blank, ends]
  · obtain _ | ⟨fourth, more⟩ := more <;>
      simp [lineRoles?, blank, ends]
  · cases rest <;> rfl

theorem group?_line (newline : token.isNewline = true) (atLineStart : Bool)
    (front more : List Token) :
    group? atLineStart (front ++ token :: more) = group? atLineStart (front ++ [token]) := by
  cases decided : group? atLineStart (front ++ [token]) with
  | some found =>
      rw [List.append_cons]
      exact group?_append decided more
  | none =>
      cases atLineStart with
      | false => rfl
      | true =>
          simp only [group?, if_true, Option.map_eq_none_iff] at decided ⊢
          rw [lineRoles?_line newline, decided]

theorem drain_append (ends : ∀ token ∈ front.getLast?, token.isNewline = true)
    (starts : front = [] → atLineStart = true) (more : List Token) :
    drain atLineStart (front ++ more) = drain atLineStart front ++ drain true more := by
  fun_induction drain atLineStart front with
  | case1 =>
      rw [starts rfl]
      rfl
  | case2 atLineStart last =>
      have newline : last.isNewline = true := ends last rfl
      have undecided : group? atLineStart (last :: more) = none :=
        (group?_line newline atLineStart [] more).trans (by cases atLineStart <;> rfl)
      rw [List.singleton_append, drain_single undecided, Token.endsLine, newline]
      rfl
  | case3 atLineStart first second rest group next decided ih =>
      have here := group?_append decided more
      have endsLine : ∀ token ∈ (first :: second :: rest).getLast?, token.endsLine = true :=
        fun token member => by simp [Token.endsLine, ends token member]
      rw [drain_group here, List.drop_append_of_le_length (length_le_of_group? decided),
        ih ?_ (next_of_group? decided endsLine), List.cons_append]
      intro token member
      rw [List.getLast?_drop] at member
      split at member
      · cases member
      · exact ends token member
  | case4 atLineStart first second rest undecided ih =>
      obtain ⟨body, token, same⟩ : ∃ body token, first :: second :: rest = body ++ [token] :=
        ⟨_, _, (List.dropLast_append_getLast (List.cons_ne_nil _ _)).symm⟩
      have newline : token.isNewline = true := ends token (by simp [same])
      have still : group? atLineStart (first :: (second :: rest ++ more)) = none := by
        rw [← List.cons_append, same, List.append_assoc, List.singleton_append,
          group?_line newline, ← same, undecided]
      rw [List.cons_append, drain_single still, ih ?_ (by simp), List.cons_append]
      intro token member
      exact ends token (by simpa using member)

theorem endsOnce_of_append {tokens : List Token} (filled : tokens ≠ [])
    (ends : Token.EndsOnce (front ++ tokens)) : Token.EndsOnce tokens := by
  obtain ⟨body, ending, same, isEof, inside⟩ := ends
  obtain rfl | ⟨rest, last, rfl⟩ := tokens.eq_nil_or_concat'
  · exact absurd rfl filled
  · rw [← List.append_assoc] at same
    obtain ⟨rfl, final⟩ := List.append_inj' same rfl
    obtain rfl := List.singleton_inj.mp final
    exact ⟨rest, last, rfl, isEof, fun t member => inside t (List.mem_append_right _ member)⟩

theorem groupsOf_append {tokens : List Token}
    (newline : ∀ token ∈ front.getLast?, token.isNewline = true) (filled : tokens ≠ [])
    (ends : Token.EndsOnce (front ++ tokens)) :
    groupsOf (front ++ tokens) = drain true front ++ groupsOf tokens := by
  rw [groupsOf_eq_drain ends, groupsOf_eq_drain (endsOnce_of_append filled ends),
    drain_append newline (fun _ => rfl)]

end LineClassifier

end Stencil
