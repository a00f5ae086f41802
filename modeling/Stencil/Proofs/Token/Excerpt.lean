import Stencil.Proofs.Token.OwnLine
import Stencil.Proofs.Token.Prefix

/-!
Parts of a template, read as templates of their own. Main statement: what stands between the tags of
a section, less what goes with lines that the tags have to themselves, is read by itself as it is
there, if the delimiters are the standard ones where the section opens.
-/

namespace Stencil

theorem Delimiters.eq_of_texts {d other : Delimiters} (same : d.texts = other.texts) :
    d = other := by
  obtain ⟨opening, closing, _, _⟩ := d
  obtain ⟨otherOpening, otherClosing, _, _⟩ := other
  obtain ⟨sameOpening, sameClosing⟩ := Prod.mk.inj same
  obtain rfl : opening = otherOpening := String.ofList_injective sameOpening
  obtain rfl : closing = otherClosing := String.ofList_injective sameClosing
  rfl

namespace Lexeme

variable {d inside : Delimiters} {tokens front more : List Token} {token closing : Token}
  {rest tail cs : List Char} {place : Cursor → Position} {cursor : Cursor} {c : Char}

theorem ReadsFrom.of_append (reads : ReadsFrom d (front ++ more) inside rest) :
    ∃ middle, ReadsFrom d front middle (chars more ++ rest) ∧
      ReadsFrom middle more inside rest := by
  induction front generalizing d with
  | nil => exact ⟨d, .nil, reads⟩
  | cons token front ih =>
      rw [List.cons_append] at reads
      obtain _ | ⟨raw, read, kind, whole, further⟩ := reads
      obtain ⟨middle, before, after⟩ := ih further
      refine ⟨middle, .cons raw ?_ kind whole before, after⟩
      rwa [chars_append, List.append_assoc] at read

theorem readsFrom_of_tokens (read : Lexeme.tokens place d cursor cs = .ok tokens) :
    ∃ body inside position, tokens = body ++ [⟨.eof, position, ""⟩] ∧ chars body = cs ∧
      ReadsFrom d body inside [] := by
  fun_induction Lexeme.tokens place d cursor cs generalizing tokens with
  | case1 d cursor =>
      cases read
      exact ⟨[], d, _, rfl, rfl, .nil⟩
  | case2 => cases read
  | case3 => cases read
  | case4 d cursor c rest l ahead later further ih =>
      cases read
      obtain ⟨body, inside, position, rfl, same, reads⟩ := ih further
      obtain ⟨whole, filled⟩ := append_of_ahead ahead
      obtain ⟨first, run, raw⟩ := List.exists_cons_of_ne_nil filled
      rw [raw, List.cons_append, List.cons.injEq] at whole
      obtain ⟨rfl, whole⟩ := whole
      refine ⟨⟨l.kind, place cursor, String.ofList l.raw⟩ :: body, inside, position, rfl, ?_, ?_⟩
      · rw [chars_cons, String.toList_ofList, same, raw, List.cons_append, whole]
      · refine .cons (l := l) (by rw [String.toList_ofList, raw]) ?_ rfl raw reads
        rw [List.append_nil, same, whole, ahead]

theorem ReadsFrom.exists_opening {kind : TagKind} {name : String}
    (reads : ReadsFrom d (token :: tokens) inside rest) (tag : token.kind = .tag kind name) :
    ∃ after, chars (token :: tokens) ++ rest = d.opening ++ after := by
  obtain _ | ⟨raw, read, sameKind, whole, further⟩ := reads
  rename_i c run l
  cases opens : Text.after? d.opening (c :: (run ++ (chars tokens ++ rest))) with
  | some after =>
      refine ⟨after, ?_⟩
      rw [Text.append_of_after? opens, chars_cons, raw, List.append_assoc, List.cons_append]
  | none =>
      rw [ahead, opens] at read
      cases read
      exact absurd (sameKind.trans tag) (kind_plain_ne_tag d c _ kind name)

theorem ahead_newline (plainly : d.IsPlain) (ending : LineEnding) :
    ∃ c run, ending.text.toList = c :: run ∧
      ∀ rest, ahead d c (run ++ rest) = .ok ⟨.newline ending, c :: run, rest, d⟩ := by
  obtain ⟨first, opening, same, letter⟩ := exists_opening plainly
  have closed (c : Char) (rest : List Char) (blank : Text.isBlank c = true) :
      Text.after? d.opening (c :: rest) = none := by
    have other : first ≠ c := by
      rintro rfl
      cases letter.symm.trans blank
    rw [same, Text.after?, if_neg other]
  cases ending with
  | lf => exact ⟨'\n', [], rfl, fun rest => by rw [ahead, closed _ _ rfl]; rfl⟩
  | crlf => exact ⟨'\r', ['\n'], rfl, fun rest => by rw [ahead, closed _ _ rfl]; rfl⟩

theorem endsText_line (plainly : d.IsPlain) (newline : '\n' ∈ cs)
    (stops : endsText d.opening (cs ++ tail) = true) : endsText d.opening cs = true := by
  have opens : d.opening <+: cs ++ tail → d.opening <+: cs := by
    intro before
    rcases List.prefix_or_prefix_of_prefix before (List.prefix_append cs tail) with within | within
    · exact within
    · have letter := (plainly '\n' (List.mem_append_left _ (within.subset newline))).1
      cases letter
  cases cs with
  | nil => cases newline
  | cons first others =>
      simp only [endsText, List.cons_append] at stops opens ⊢
      split
      · rfl
      · next ordinary =>
          rw [if_neg ordinary] at stops
          split
          · next carriage =>
              rw [if_pos carriage] at stops
              have filled : others ≠ [] := by
                rintro rfl
                rw [carriage] at newline
                simp at newline
              rwa [List.head?_append_of_ne_nil _ filled] at stops
          · next other =>
              rw [if_neg other, List.isPrefixOf_iff_prefix] at stops
              exact List.isPrefixOf_iff_prefix.mpr (opens stops)

theorem ReadsFrom.raw_newline {ending : LineEnding} (plainly : d.IsPlain)
    (reads : ReadsFrom d [token] inside rest) (newline : token.kind = .newline ending) :
    token.raw.toList = ending.text.toList := by
  obtain _ | ⟨raw, read, kind, whole, -⟩ := reads
  have written := (isRead_of_ahead plainly read).written
  rw [kind, newline, whole, ← raw] at written
  generalize token.raw.toList = cs at written
  cases written
  rfl

theorem ReadsFrom.truncate_line (plainly : d.IsPlain) (newline : token.isNewline = true)
    (reads : ReadsFrom d (front ++ [token]) inside rest) :
    ReadsFrom d (front ++ [token]) inside [] := by
  obtain ⟨ending, isEnding⟩ := Token.isNewline_iff.mp newline
  have raw : token.raw.toList = ending.text.toList := by
    obtain ⟨middle, before, last⟩ := reads.of_append
    exact last.raw_newline (before.inForce plainly).2 isEnding
  have feed (front : List Token) : '\n' ∈ chars (front ++ [token]) := by
    rw [chars_append, chars_cons, raw]
    cases ending <;> simp [LineEnding.text]
  induction front generalizing d with
  | nil =>
      rw [List.nil_append] at reads ⊢
      obtain _ | ⟨here, read, kind, whole, further⟩ := reads
      obtain _ | _ := further
      obtain ⟨c, run, same, alone⟩ := ahead_newline plainly ending
      obtain ⟨rfl, rfl⟩ := List.cons.inj (here.symm.trans (raw.trans same))
      obtain rfl := Except.ok.inj (read.symm.trans (alone _))
      exact .cons here (alone _) kind whole .nil
  | cons first front ih =>
      rw [List.cons_append] at reads ⊢
      obtain _ | ⟨here, read, kind, whole, further⟩ := reads
      have blank : startsBlank (chars (front ++ [token]) ++ rest) =
          startsBlank (chars (front ++ [token])) := by
        obtain ⟨c, others, filled⟩ := List.exists_cons_of_ne_nil (List.ne_nil_of_mem (feed front))
        rw [filled]
        rfl
      have inner := ih ((isRead_of_ahead plainly read).plain plainly) further
      have alone := ahead_cut read whole
        (fun _ stops => endsText_line plainly (feed front) stops) fun _ => blank
      rw [← List.append_nil (chars (front ++ [token]))] at alone
      exact .cons here alone kind whole inner

end Lexeme

namespace Token

variable {front inner behind : List Token} {opening closing : Token} {standing : String × String}

theorem inForce_append (standing : String × String) (front more : List Token) :
    inForce standing (front ++ more) = inForce (inForce standing front) more :=
  List.foldl_append ..

theorem inForce_of_blank {tokens : List Token}
    (blank : ∀ token ∈ tokens, token.isWhitespace = true ∨ token.endsLine = true) :
    inForce standing tokens = standing := by
  induction tokens with
  | nil => rfl
  | cons token tokens ih =>
      obtain ⟨here, further⟩ := List.forall_mem_cons.mp blank
      have unchanged : inForce standing [token] = standing := by
        obtain ⟨kind, position, raw⟩ := token
        cases kind with
        | delimiters => simp [isWhitespace, endsLine, isNewline, isEof] at here
        | _ => rfl
      rw [← List.singleton_append, inForce_append, unchanged, ih further]

theorem exists_rest (alone : closesBlank (inner ++ closing :: behind) = true)
    (isTag : closing.isStandalone = true) :
    ∃ rest kept, inner = rest ++ kept ∧ (inner.dropWhile isWhitespace).drop 1 = kept ∧
      ∀ token ∈ rest, token.isWhitespace = true ∨ token.endsLine = true := by
  obtain ⟨space, ending, further, same, isSpace, ends⟩ := exists_of_closesBlank alone
  have line : ∀ token ∈ space.toList ++ [ending],
      token.isWhitespace = true ∨ token.endsLine = true :=
    List.forall_mem_append.mpr
      ⟨fun token member => .inl (isSpace token (Option.mem_toList.mp member)),
      List.forall_mem_singleton.mpr (.inr ends)⟩
  rw [List.append_cons space.toList] at same
  obtain ⟨kept, rfl, -⟩ | ⟨rest, inside, -⟩ := append_eq_append_cons same.symm
  · refine ⟨_, kept, rfl, ?_, line⟩
    rw [List.append_assoc]
    exact dropWhile_line isSpace ends kept
  · have member : closing ∈ space.toList ++ [ending] := by simp [inside]
    rcases line closing member with blank | last
    · cases blank.symm.trans (isWhitespace_of_isStandalone isTag)
    · cases last.symm.trans (endsLine_of_isStandalone isTag)

end Token

namespace Lexeme

open Token

variable {inner : List Token} {closing : Token} {d inside : Delimiters} {tail : List Char}

theorem ReadsFrom.between (front : List Token) (opening : Token) (behind : List Token)
    (plainly : d.IsPlain) (reads : ReadsFrom d inner inside (inside.opening ++ tail))
    (isTag : closing.isStandalone = true) (within : ∀ token ∈ inner, token.isEof = false) :
    ∃ last, ReadsFrom d (between front opening inner closing behind) last [] := by
  -- What the opening tag leaves.
  obtain ⟨rest, kept, rfl, leaves, reads⟩ : ∃ rest kept, inner = rest ++ kept ∧
      (if isAlone front (inner ++ closing :: behind) then (inner.dropWhile isWhitespace).drop 1
        else inner) = kept ∧ ReadsFrom d kept inside (inside.opening ++ tail) := by
    split
    · next alone =>
        obtain ⟨rest, kept, rfl, leaves, blank⟩ :=
          exists_rest (Bool.and_eq_true_iff.mp alone).2 isTag
        obtain ⟨middle, before, after⟩ := reads.of_append
        obtain rfl : middle = d :=
          Delimiters.eq_of_texts ((before.inForce plainly).1.trans (inForce_of_blank blank))
        exact ⟨rest, kept, rfl, leaves, after⟩
    · exact ⟨[], inner, rfl, rfl, reads⟩
  rw [between, leaves]
  split
  · next alone =>
      generalize spelled : kept.rdropWhile isWhitespace = part
      obtain rfl | ⟨part, last, rfl⟩ := part.eq_nil_or_concat'
      · exact ⟨d, .nil⟩
      · have parted : kept = part ++ [last] ++ kept.rtakeWhile isWhitespace := by
          rw [← spelled, List.rdropWhile_append_rtakeWhile]
        have spaces : ∀ token ∈ kept.rtakeWhile isWhitespace, token.isWhitespace = true :=
          fun token member => List.mem_rtakeWhile_imp member
        generalize kept.rtakeWhile isWhitespace = blanks at parted spaces
        subst parted
        by_cases filled : blanks = []
        · subst filled
          rw [List.append_nil] at reads
          exact ⟨inside, reads.truncate plainly⟩
        · have blank := (Bool.and_eq_true_iff.mp alone).1
          have reshaped : opensBlank ((front ++ opening :: (rest ++ part)) ++ last :: blanks) =
              true := by simpa using blank
          have newline : last.isNewline = true := by
            have ends := endsLine_of_opensBlank reshaped filled spaces
            rwa [Token.endsLine, within last (by simp), Bool.or_false] at ends
          obtain ⟨middle, before, -⟩ := reads.of_append
          exact ⟨middle, before.truncate_line plainly newline⟩
  · exact ⟨inside, reads.truncate plainly⟩

theorem map_kind_placed (place : Cursor → Position) (cursor : Cursor) (tokens : List Token) :
    (placed place cursor tokens).map Token.kind = tokens.map Token.kind := by
  induction tokens generalizing cursor with
  | nil => rfl
  | cons token tokens ih => rw [placed, List.map_cons, ih, List.map_cons]

end Lexeme

open Lexeme Token

variable {template source name endName : String} {front inner behind : List Token}
  {opening closing : Token}

/-- What stands between two tags of a template comes to the same tokens in a template of its own, if
the standard delimiters are in force where the first tag stands. -/
theorem tokenize_between {kind : TagKind}
    (read : tokenize template source = .ok (front ++ opening :: (inner ++ closing :: behind)))
    (opens : opening.kind = .tag kind name) (closes : closing.kind = .tag .close endName)
    (standard : inForce Delimiters.standard.texts front = Delimiters.standard.texts)
    (other : String) :
    ∃ tokens, tokenize other (text (between front opening inner closing behind)) = .ok tokens ∧
      tokens.map Token.kind =
        (between front opening inner closing behind).map Token.kind ++ [.eof] := by
  have isTag : closing.isStandalone = true := by rw [isStandalone, closes]; rfl
  have within : ∀ token ∈ inner, token.isEof = false := by
    have ends := endsOnce_of_tokenize read
    rw [List.append_cons, ← List.append_assoc] at ends
    exact fun token member => ends.isEof_of_mem (List.cons_ne_nil _ _) token
      (List.mem_append_right _ member)
  obtain ⟨body, last, position, same, -, reads⟩ := readsFrom_of_tokens read
  obtain ⟨more, rfl⟩ : ∃ more, body = (front ++ [opening]) ++ (inner ++ closing :: more) := by
    obtain rfl | ⟨more, ending, rfl⟩ := behind.eq_nil_or_concat'
    · have isEnd : closing = ⟨.eof, position, ""⟩ := by
        rw [List.append_cons, ← List.append_assoc] at same
        exact List.singleton_inj.mp (List.append_inj' same rfl).2
      rw [isEnd] at closes
      cases closes
    · refine ⟨more, ?_⟩
      have whole : ((front ++ [opening]) ++ (inner ++ closing :: more)) ++ [ending] =
          body ++ [⟨.eof, position, ""⟩] := by
        rw [← same]
        simp
      exact (List.append_inj' whole rfl).1.symm
  obtain ⟨middle, before, reads⟩ := reads.of_append
  obtain rfl : middle = .standard := by
    refine Delimiters.eq_of_texts ((before.inForce Delimiters.isPlain_standard).1.trans ?_)
    rw [inForce_append, standard]
    simp [inForce, opens]
  obtain ⟨inside, reads, after⟩ := reads.of_append
  obtain ⟨tail, next⟩ := after.exists_opening closes
  rw [next] at reads
  obtain ⟨last, alone⟩ :=
    reads.between front opening behind Delimiters.isPlain_standard isTag within
  rw [tokenize, text, String.toList_ofList]
  refine ⟨_, tokens_of_readsFrom alone _ _, ?_⟩
  rw [List.map_append, map_kind_placed]
  rfl

end Stencil
