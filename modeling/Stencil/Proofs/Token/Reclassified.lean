import Stencil.Proofs.Token.OwnLine

/-!
What classification leaves of a template, classified once more. A line of its own gives up its
ending, so that its tag comes to stand in front of the next line. Main statement: what is left can
be read, and something of it is ignored exactly where a tag comes to stand alone in front of a blank
line.
-/

namespace Stencil

def LineToken.isKept (t : LineToken) : Bool := t.role = .normal || t.role = .indent

namespace StandaloneLine

def kept (line : StandaloneLine) : List Token := line.before.toList ++ [line.tag]

end StandaloneLine

def Token.IsBlankLine (line : List Token) : Prop :=
  ∃ (space : Option Token) (ending : Token), line = space.toList ++ [ending] ∧
    (∀ token ∈ space, token.isWhitespace = true) ∧ ending.endsLine = true ∧
    (ending.isEof = true → space.isSome = true)

/-- That a line of its own, which does not stand directly behind another one, stands directly in
front of a blank line. -/
def Token.Rejoins (lines : List (List Token)) : Prop :=
  ∃ (before : List (List Token)) (line : StandaloneLine) (blank : List Token)
    (after : List (List Token)), lines = before ++ line.tokens :: blank :: after ∧
    (∀ earlier ∈ before.getLast?, ∀ other : StandaloneLine, other.tokens ≠ earlier) ∧
    IsBlankLine blank

namespace LineClassifier

def keptTokens (groups : List LineGroup) : List Token :=
  (groups.flatten.filter LineToken.isKept).map LineToken.token

def keptText (groups : List LineGroup) : String := Token.text (keptTokens groups)

def Ignores (groups : List LineGroup) : Prop := ∃ t ∈ groups.flatten, t.role = .ignore

instance (groups : List LineGroup) : Decidable (Ignores groups) :=
  inferInstanceAs (Decidable (∃ t ∈ groups.flatten, t.role = .ignore))

end LineClassifier

open Token

section

variable {token : Token} {tokens body : List Token} {line : StandaloneLine}

theorem LineToken.role_of (role : Role) (within : token.isEof = false) :
    (LineToken.of role token).role = role := by
  simp [LineToken.of, within]

theorem LineToken.isKept_of_normal (token : Token) :
    (LineToken.of .normal token).isKept = !token.isEof := by
  cases ends : token.isEof <;> simp [LineToken.of, LineToken.isKept, ends]

theorem LineToken.isKept_of_ignore (token : Token) :
    (LineToken.of .ignore token).isKept = false := by
  cases ends : token.isEof <;> simp [LineToken.of, LineToken.isKept, ends]

theorem LineToken.isKept_of_indent (within : token.isEof = false) :
    (LineToken.of .indent token).isKept = true := by
  simp [LineToken.of, LineToken.isKept, within]

theorem Token.exists_of_isStandalone (standalone : token.isStandalone = true) :
    ∃ kind name, token.kind = .tag kind name := by
  obtain ⟨kind, position, raw⟩ := token
  cases kind <;> first | exact ⟨_, _, rfl⟩ | cases standalone

theorem Token.EndsOnce.isEof_last {last : Token} (ends : EndsOnce (body ++ [last])) :
    last.isEof = true := by
  obtain ⟨front, ending, same, isEof, -⟩ := ends
  obtain ⟨-, final⟩ := List.append_inj' same rfl
  rwa [List.singleton_inj.mp final]

theorem Token.EndsOnce.exists_last (ends : EndsOnce tokens) :
    ∃ front last, tokens = front ++ [last] := by
  obtain ⟨front, last, same, -⟩ := ends
  exact ⟨front, last, same⟩

theorem Token.isEof_of_endsLine (within : token.endsLine = false) : token.isEof = false :=
  (Bool.or_eq_false_iff.mp within).2

theorem Token.IsBlankLine.ne_tokens (isBlank : IsBlankLine tokens) (line : StandaloneLine) :
    line.tokens ≠ tokens := by
  obtain ⟨space, ending, rfl, isSpace, ends, -⟩ := isBlank
  intro same
  have member : line.tag ∈ space.toList ++ [ending] := by
    rw [← same, StandaloneLine.tokens]
    simp
  obtain blank | final := List.mem_append.mp member
  · have whitespace := isSpace line.tag (Option.mem_toList.mp blank)
    cases whitespace.symm.trans (isWhitespace_of_isStandalone line.tag_isStandalone)
  · rw [← List.mem_singleton.mp final] at ends
    cases ends.symm.trans (endsLine_of_isStandalone line.tag_isStandalone)

theorem Token.not_isBlankLine_eof (isEof : token.isEof = true) : ¬ IsBlankLine [token] := by
  rintro ⟨_ | space, ending, same, -, -, filled⟩
  · obtain rfl := List.singleton_inj.mp same
    cases filled isEof
  · cases List.cons.inj same |>.2

namespace StandaloneLine

theorem tokens_ne_singleton (line : StandaloneLine) (token : Token) : line.tokens ≠ [token] := by
  intro same
  have lengths := congrArg List.length same
  simp only [tokens, List.length_append, List.length_cons, List.length_nil] at lengths
  omega

theorem endsLine_of_mem_kept (member : token ∈ line.kept) : token.endsLine = false := by
  obtain before | tag := List.mem_append.mp member
  · exact endsLine_of_isWhitespace (line.before_isWhitespace token (Option.mem_toList.mp before))
  · rw [List.mem_singleton.mp tag]
    exact endsLine_of_isStandalone line.tag_isStandalone

theorem group_of_tokens {other : StandaloneLine} (same : other.tokens = line.tokens) :
    other.group = line.group := by
  obtain ⟨before, tag, after⟩ := other.eq_of_tokens same line.tag_isStandalone
  rw [group, group, before, tag, after]

end StandaloneLine

namespace LineClassifier

theorem keptTokens_append (first second : List LineGroup) :
    keptTokens (first ++ second) = keptTokens first ++ keptTokens second := by
  simp [keptTokens]

theorem keptTokens_line (line : StandaloneLine) : keptTokens [line.group] = line.kept := by
  have before : (line.before.toList.map (LineToken.of .indent)).filter LineToken.isKept =
      line.before.toList.map (LineToken.of .indent) := by
    rw [List.filter_eq_self, List.forall_mem_map]
    intro token member
    have space := line.before_isWhitespace token (Option.mem_toList.mp member)
    exact LineToken.isKept_of_indent (isEof_of_endsLine (endsLine_of_isWhitespace space))
  have after : ((line.after.toList ++ [line.ending]).map (LineToken.of .ignore)).filter
      LineToken.isKept = [] := by
    rw [List.filter_eq_nil_iff, List.forall_mem_map]
    intro token _
    simp [LineToken.isKept_of_ignore]
  have tag : (LineToken.of .normal line.tag).isKept = true := by
    rw [LineToken.isKept_of_normal,
      isEof_of_endsLine (endsLine_of_isStandalone line.tag_isStandalone)]
    rfl
  rw [keptTokens, List.flatten_singleton, StandaloneLine.group, List.filter_append, before,
    List.filter_cons_of_pos tag, after, List.map_append, map_token_map_of]
  rfl

theorem keptTokens_plain {groups : List LineGroup}
    (normal : groups.flatten = tokens.map (LineToken.of .normal)) :
    keptTokens groups = tokens.filter fun token => !token.isEof := by
  have kept : LineToken.isKept ∘ LineToken.of .normal = fun token => !token.isEof :=
    funext LineToken.isKept_of_normal
  rw [keptTokens, normal, List.filter_map, kept, map_token_map_of]

theorem ignores_append (first second : List LineGroup) :
    Ignores (first ++ second) ↔ Ignores first ∨ Ignores second := by
  simp only [Ignores, List.flatten_append, List.mem_append, or_and_right, exists_or]

theorem ignores_nil : ¬ Ignores [] := by
  rintro ⟨t, member, -⟩
  cases member

theorem ignores_unplaced (groups : List LineGroup) :
    Ignores (groups.map (List.map LineToken.unplaced)) ↔ Ignores groups := by
  rw [Ignores, ← List.map_flatten]
  simp only [List.mem_map, exists_exists_and_eq_and]
  rfl

theorem ignores_line (line : StandaloneLine) :
    Ignores [line.group] ↔ (line.ending.isEof = true → line.after.isSome = true) := by
  constructor
  · rintro ⟨t, member, ignored⟩ isEof
    rw [List.flatten_singleton, StandaloneLine.group, List.map_append] at member
    simp only [List.mem_append, List.mem_cons, List.mem_map, Option.mem_toList, List.map_cons,
      List.map_nil, List.not_mem_nil, or_false] at member
    obtain ⟨token, -, rfl⟩ | rfl | ⟨token, after, rfl⟩ | rfl := member
    · exact absurd ignored (LineToken.role_ne (by decide) (by decide) token)
    · exact absurd ignored (LineToken.role_ne (by decide) (by decide) line.tag)
    · exact Option.isSome_iff_exists.mpr ⟨token, after⟩
    · simp [LineToken.of, isEof] at ignored
  · intro further
    obtain ⟨token, member, within⟩ :
        ∃ token ∈ line.after.toList ++ [line.ending], token.isEof = false := by
      cases isEof : line.ending.isEof with
      | false => exact ⟨line.ending, by simp, isEof⟩
      | true =>
          obtain ⟨space, after⟩ := Option.isSome_iff_exists.mp (further isEof)
          have blank := endsLine_of_isWhitespace (line.after_isWhitespace space after)
          exact ⟨space, by simp [after], isEof_of_endsLine blank⟩
    refine ⟨.of .ignore token, ?_, LineToken.role_of .ignore within⟩
    rw [List.flatten_singleton, StandaloneLine.group]
    exact List.mem_append_right _ (List.mem_cons_of_mem _ (List.mem_map_of_mem member))

theorem ignores_grouped {groups : List LineGroup} (grouped : Grouped tokens groups) :
    Ignores groups ↔ ∃ line : StandaloneLine, line.tokens = tokens ∧
      (line.ending.isEof = true → line.after.isSome = true) := by
  cases grouped with
  | standalone line =>
      constructor
      · intro ignores
        exact ⟨line, rfl, (ignores_line line).mp ignores⟩
      · rintro ⟨other, same, further⟩
        rw [← StandaloneLine.group_of_tokens same]
        exact (ignores_line other).mpr further
  | plain other normal =>
      constructor
      · rintro ⟨t, member, ignored⟩
        rw [normal] at member
        exact absurd ignored (LineToken.role_ne_of_mem (by decide) (by decide) t member)
      · rintro ⟨line, same, -⟩
        exact absurd same (other line)

theorem exists_joined_line {held : List StandaloneLine} {ending : Token}
    (plain : ∀ line : StandaloneLine, line.tokens ≠ tokens ++ [ending]) :
    (∃ line : StandaloneLine,
      line.tokens = held.flatMap StandaloneLine.kept ++ (tokens ++ [ending]) ∧
      (line.ending.isEof = true → line.after.isSome = true)) ↔
      ∃ line, held = [line] ∧ IsBlankLine (tokens ++ [ending]) := by
  constructor
  · rintro ⟨line, same, further⟩
    obtain _ | ⟨first, held⟩ := held
    · exact absurd same (plain line)
    · rw [List.flatMap_cons, StandaloneLine.kept, List.append_assoc, List.append_assoc] at same
      obtain ⟨-, -, behind⟩ := line.eq_of_tokens same first.tag_isStandalone
      obtain _ | ⟨second, held⟩ := held
      · exact ⟨first, rfl, line.after, line.ending, behind, line.after_isWhitespace,
          line.ending_endsLine, further⟩
      · have spelled : line.after.toList ++ [line.ending] =
            second.before.toList ++ second.tag ::
              (held.flatMap StandaloneLine.kept ++ (tokens ++ [ending])) := by
          simpa [StandaloneLine.kept] using behind.symm
        exact absurd spelled (line.rest_ne second.tag_isStandalone)
  · rintro ⟨line, rfl, space, last, same, isSpace, endsLine, further⟩
    refine ⟨⟨line.before, line.tag, space, last, line.before_isWhitespace, line.tag_isStandalone,
      isSpace, endsLine⟩, ?_, further⟩
    rw [same, List.flatMap_singleton, StandaloneLine.kept, List.append_assoc]
    rfl

theorem forall_getLast?_append {α : Type} {p : α → Prop} {front back : List α} {item : α}
    (here : p item) :
    (∀ last ∈ (front ++ item :: back).getLast?, p last) ↔ ∀ last ∈ back.getLast?, p last := by
  rw [List.getLast?_append_of_ne_nil _ (List.cons_ne_nil _ _), List.getLast?_cons]
  cases back.getLast? <;> simp [here]

theorem rejoins_plain {held : List StandaloneLine} {more : List (List Token)}
    (plain : ∀ line : StandaloneLine, line.tokens ≠ tokens) :
    Rejoins (held.map StandaloneLine.tokens ++ tokens :: more) ↔
      (∃ line, held = [line] ∧ IsBlankLine tokens) ∨ Rejoins more := by
  constructor
  · rintro ⟨before, line, blank, after, same, apart, isBlank⟩
    obtain ⟨rest, rfl, behind⟩ | ⟨rest, own, behind⟩ := append_eq_append_cons same
    · obtain _ | ⟨first, rest⟩ := rest
      · exact absurd (List.cons.inj behind).1.symm (plain line)
      · obtain ⟨rfl, rfl⟩ := List.cons.inj behind
        exact .inr ⟨rest, line, blank, after, rfl, (forall_getLast?_append plain).mp apart, isBlank⟩
    · obtain ⟨earlier, later, rfl, rfl, inner⟩ := List.map_eq_append_iff.mp own
      obtain ⟨here, further, rfl, -, rfl⟩ := List.map_eq_cons_iff.mp inner
      obtain rfl | ⟨earlier, last, rfl⟩ := earlier.eq_nil_or_concat'
      · obtain _ | ⟨next, further⟩ := further
        · obtain ⟨rfl, -⟩ := List.cons.inj behind
          exact .inl ⟨here, rfl, isBlank⟩
        · obtain ⟨rfl, -⟩ := List.cons.inj behind
          exact absurd rfl (isBlank.ne_tokens next)
      · exact absurd rfl (apart last.tokens (by simp) last)
  · rintro (⟨line, rfl, isBlank⟩ | ⟨before, line, blank, after, rfl, apart, isBlank⟩)
    · exact ⟨[], line, tokens, more, rfl, by simp, isBlank⟩
    · exact ⟨held.map StandaloneLine.tokens ++ tokens :: before, line, blank, after, by simp,
        (forall_getLast?_append plain).mpr apart, isBlank⟩

theorem not_rejoins_own (held : List StandaloneLine) :
    ¬ Rejoins (held.map StandaloneLine.tokens) := by
  rintro ⟨before, line, blank, after, same, -, isBlank⟩
  have member : blank ∈ held.map StandaloneLine.tokens := by simp [same]
  obtain ⟨own, -, rfl⟩ := List.mem_map.mp member
  exact isBlank.ne_tokens own rfl

theorem ignores_joined {held : List StandaloneLine} {front rest : List Token} {ending : Token}
    (inside : ∀ t ∈ front, t.endsLine = false) (ends : ending.endsLine = true)
    (final : rest = [] ∨ ending.isEof = false)
    (plain : ∀ line : StandaloneLine, line.tokens ≠ front ++ [ending]) :
    Ignores (drain true (held.flatMap StandaloneLine.kept ++ (front ++ ending :: rest))) ↔
      (∃ line, held = [line] ∧ IsBlankLine (front ++ [ending])) ∨ Ignores (drain true rest) := by
  have within : ∀ t ∈ held.flatMap StandaloneLine.kept ++ front, t.endsLine = false := by
    refine List.forall_mem_append.mpr ⟨?_, inside⟩
    intro t member
    obtain ⟨line, -, member⟩ := List.mem_flatMap.mp member
    exact line.endsLine_of_mem_kept member
  obtain ⟨groups, grouped, released⟩ := exists_grouped_line within ends final
  rw [List.append_assoc] at grouped
  rw [← List.append_assoc, released, ignores_append, ignores_grouped grouped,
    exists_joined_line plain]

section

variable {front more : List Token} {ending last : Token}

theorem keptTokens_front {groups : List LineGroup} (inside : ∀ t ∈ front, t.endsLine = false)
    (normal : groups.flatten = (front ++ [ending]).map (LineToken.of .normal)) :
    keptTokens groups = front ++ if ending.isEof then [] else [ending] := by
  have filled : front.filter (fun token => !token.isEof) = front := by
    rw [List.filter_eq_self]
    intro token member
    rw [isEof_of_endsLine (inside token member)]
    rfl
  rw [keptTokens_plain normal, List.filter_append, filled]
  cases ends : ending.isEof <;> simp [ends]

theorem ignores_lastLine (held : List StandaloneLine) (inside : ∀ t ∈ front, t.endsLine = false)
    (isEof : last.isEof = true) :
    Ignores (drain true (held.flatMap StandaloneLine.kept ++
        (keptTokens (drain true (front ++ [last])) ++ [last]))) ↔
      Rejoins (held.map StandaloneLine.tokens ++ [front ++ [last]]) := by
  have ends : last.endsLine = true := by simp [endsLine, isEof]
  obtain ⟨groups, grouped, released⟩ := exists_grouped_line inside ends (.inl rfl)
  rw [drain, List.append_nil] at released
  rw [released]
  generalize spelled : front ++ [last] = tokens at grouped
  cases grouped with
  | standalone line =>
      have own := not_rejoins_own (held ++ [line])
      have nothing : ∀ t ∈ ([] : List Token), t.endsLine = false := List.forall_mem_nil _
      have apart : ∀ other : StandaloneLine, other.tokens ≠ [] ++ [last] :=
        fun other => other.tokens_ne_singleton last
      have joined := @ignores_joined (held ++ [line]) [] [] last nothing ends (.inl rfl) apart
      rw [List.flatMap_append, List.flatMap_singleton, List.append_assoc, drain] at joined
      rw [List.map_append, List.map_singleton] at own
      rw [keptTokens_line, show line.kept ++ [last] = line.kept ++ ([] ++ [last]) from rfl, joined]
      refine iff_of_false ?_ own
      rintro (⟨-, -, blank⟩ | ignores)
      · exact not_isBlankLine_eof isEof blank
      · exact ignores_nil ignores
  | plain plain normal =>
      subst spelled
      rw [keptTokens_front inside normal, if_pos isEof, List.append_nil, rejoins_plain plain,
        ignores_joined inside ends (.inl rfl) plain, drain]
      exact or_congr_right (iff_of_false ignores_nil (not_rejoins_own []))

/-- What is left of a template, with lines of its own in front of it, ignores something where a tag
comes to stand alone in front of a blank line. -/
theorem ignores_again (held : List StandaloneLine) (ends : EndsOnce (front ++ [last])) :
    Ignores (drain true (held.flatMap StandaloneLine.kept ++
        (keptTokens (drain true (front ++ [last])) ++ [last]))) ↔
      Rejoins (held.map StandaloneLine.tokens ++ lines (front ++ [last])) := by
  induction size : front.length using Nat.strongRecOn generalizing front held with
  | ind n shorter =>
      obtain ⟨here, ending, more, same, inside, endsLine, rest⟩ := ends.exists_line
      obtain rfl | ⟨notEof, further⟩ := rest
      · obtain ⟨rfl, final⟩ := List.append_inj' same rfl
        obtain rfl := List.singleton_inj.mp final
        rw [lines_append inside endsLine]
        exact ignores_lastLine held inside ends.isEof_last
      · obtain ⟨more, final, rfl⟩ := further.exists_last
        rw [← List.cons_append, ← List.append_assoc] at same
        obtain ⟨rfl, final⟩ := List.append_inj' same rfl
        obtain rfl := List.singleton_inj.mp final
        have fewer : more.length < n := by
          simp only [List.length_append, List.length_cons] at size
          omega
        have final : more ++ [last] = [] ∨ ending.isEof = false := .inr notEof
        obtain ⟨groups, grouped, released⟩ := exists_grouped_line inside endsLine final
        rw [List.append_assoc, List.cons_append, released, keptTokens_append,
          lines_append inside endsLine]
        generalize spelled : here ++ [ending] = tokens at grouped
        cases grouped with
        | standalone line =>
            have step := shorter _ fewer (held ++ [line]) further rfl
            simpa [keptTokens_line] using step
        | plain plain normal =>
            subst spelled
            have step := shorter _ fewer [] further rfl
            rw [keptTokens_front inside normal, notEof, if_neg Bool.false_ne_true,
              rejoins_plain plain, List.append_assoc, List.append_assoc, List.singleton_append,
              ignores_joined inside endsLine (.inr notEof) plain]
            exact or_congr_right step

end

/-- Some tokens and what is kept of them: behind a structural tag, some of them may be missing. -/
inductive Thins : List Token → List Token → Prop where
  | nil : Thins [] []
  | keep (token : Token) {whole kept : List Token} : Thins whole kept →
      Thins (token :: whole) (token :: kept)
  | drop {tag : Token} (dropped : List Token) {whole kept : List Token} :
      tag.isStandalone = true → Thins whole kept →
      Thins (tag :: (dropped ++ whole)) (tag :: kept)

namespace Thins

variable {whole kept more moreKept : List Token}

theorem refl (tokens : List Token) : Thins tokens tokens := by
  induction tokens with
  | nil => exact .nil
  | cons token tokens ih => exact .keep token ih

theorem append (first : Thins whole kept) (second : Thins more moreKept) :
    Thins (whole ++ more) (kept ++ moreKept) := by
  induction first with
  | nil => exact second
  | keep token _ ih => exact .keep token ih
  | drop dropped standalone _ ih =>
      rw [List.cons_append, List.append_assoc]
      exact .drop dropped standalone ih

/-- What is kept of some tokens that can be read can be read, and begins as they do. -/
theorem readsAll (thins : Thins whole kept) (reads : Lexeme.ReadsAll whole []) :
    Lexeme.ReadsAll kept [] ∧ (Lexeme.chars kept).take 2 = (Lexeme.chars whole).take 2 := by
  induction thins with
  | nil => exact ⟨.nil, rfl⟩
  | keep token _ ih =>
      obtain _ | ⟨here, further⟩ := reads
      obtain ⟨inner, same⟩ := ih further
      rw [List.append_nil] at here
      refine ⟨.cons (here.agree ?_) inner, Lexeme.Agree.take_append_left same _⟩
      rw [List.append_nil]
      exact .of_take same.symm _
  | @drop tag dropped whole kept standalone _ ih =>
      obtain _ | ⟨here, further⟩ := reads
      obtain ⟨kind, name, isTag⟩ := exists_of_isStandalone standalone
      obtain ⟨inner, raw, anywhere⟩ := here.of_tag isTag
      refine ⟨.cons (anywhere _) (ih further.of_append.2).1, ?_⟩
      rw [Lexeme.chars_cons, Lexeme.chars_cons, raw]
      rfl

end Thins

theorem thins_grouped {groups : List LineGroup} (grouped : Grouped tokens groups) :
    Thins (tokens.filter fun token => !token.isEof) (keptTokens groups) := by
  cases grouped with
  | standalone line =>
      have kept : line.kept.filter (fun token => !token.isEof) = line.kept := by
        rw [List.filter_eq_self]
        intro token member
        rw [isEof_of_endsLine (line.endsLine_of_mem_kept member)]
        rfl
      have parts : line.tokens = line.kept ++ (line.after.toList ++ [line.ending]) := by
        simp [StandaloneLine.tokens, StandaloneLine.kept]
      rw [keptTokens_line, parts, List.filter_append, kept, StandaloneLine.kept, List.append_assoc]
      refine (Thins.refl _).append ?_
      have dropped := Thins.drop ((line.after.toList ++ [line.ending]).filter fun token =>
        !token.isEof) line.tag_isStandalone .nil
      rwa [List.append_nil] at dropped
  | plain _ normal =>
      rw [keptTokens_plain normal]
      exact .refl _

theorem thins_drain (ends : EndsOnce tokens) :
    Thins (tokens.filter fun token => !token.isEof) (keptTokens (drain true tokens)) := by
  obtain ⟨parts, each, whole⟩ := exists_grouped_lines ends
  rw [whole, ← congrArg (List.filter _) (flatten_lines tokens)]
  clear whole
  generalize lines tokens = lines at each
  induction each with
  | nil => exact .nil
  | cons here _ ih =>
      rw [List.flatten_cons, List.flatten_cons, List.filter_append, keptTokens_append]
      exact (thins_grouped here).append ih

end LineClassifier

end

open LineClassifier

/-- What is kept of a template can be read. Where it is classified once more, something of it is
ignored exactly where a line of its own, which does not stand directly behind another one, stands
directly in front of a blank line. -/
theorem tokenize_keptText {template source : String} {tokens : List Token}
    (read : tokenize template source = .ok tokens)
    (unchanged : ∀ token ∈ tokens, ∀ opening closing, token.kind ≠ .delimiters opening closing) :
    ∃ again, tokenize template (keptText (groupsOf tokens)) = .ok again ∧
      (Ignores (groupsOf again) ↔ Rejoins (lines tokens)) := by
  have ends := endsOnce_of_tokenize read
  obtain ⟨body, position, rfl, -, reads⟩ := readsAll_of_tokenize read unchanged
  generalize spelled : (⟨.eof, position, ""⟩ : Token) = last at ends
  have within : (body ++ [last]).filter (fun token => !token.isEof) = body := by
    have inside := ends.isEof_of_mem (List.cons_ne_nil last [])
    rw [List.filter_append, List.filter_eq_self.mpr (by simpa using inside)]
    simp [ends.isEof_last]
  have thins := thins_drain ends
  rw [within] at thins
  obtain ⟨again, readAgain, same⟩ := tokenize_of_readsAll (thins.readsAll reads).1
    String.toList_ofList.symm template
  have alike : again.map Token.unplaced =
      (keptTokens (drain true (body ++ [last])) ++ [last]).map Token.unplaced := by
    rw [same, List.map_append, ← spelled]
    rfl
  refine ⟨again, by rwa [groupsOf_eq_drain ends], ?_⟩
  rw [groupsOf_eq_drain (endsOnce_of_tokenize readAgain), ← ignores_unplaced, ← drain_unplaced,
    alike, drain_unplaced, ignores_unplaced]
  exact ignores_again [] ends

/-- Two lines of their own in front of a blank line. -/
theorem tokenize_keptText_pair :
    ∃ tokens again,
      tokenize "main" "{{#a}}\n{{/a}}\n\n" = .ok tokens ∧
        (∀ token ∈ tokens, ∀ opening closing, token.kind ≠ .delimiters opening closing) ∧
        keptText (groupsOf tokens) = "{{#a}}{{/a}}\n" ∧
        tokenize "main" "{{#a}}{{/a}}\n" = .ok again ∧
        ¬ Ignores (groupsOf again) ∧ ¬ Rejoins (lines tokens) := by
  let tokens : List Token := [⟨.tag .openSection "a", ⟨"main", 1, 1, "{{#a}}"⟩,
    "{{#a}}"⟩, ⟨.newline .lf, ⟨"main", 1, 7, "{{#a}}"⟩, "\n"⟩,
    ⟨.tag .close "a", ⟨"main", 2, 1, "{{/a}}"⟩, "{{/a}}"⟩,
    ⟨.newline .lf, ⟨"main", 2, 7, "{{/a}}"⟩, "\n"⟩,
    ⟨.newline .lf, ⟨"main", 3, 1, ""⟩, "\n"⟩, ⟨.eof, ⟨"main", 4, 1, ""⟩, ""⟩]
  have read : tokenize "main" "{{#a}}\n{{/a}}\n\n" = .ok tokens := by
    decide +kernel
  have unchanged : ∀ token ∈ tokens, ∀ opening closing,
      token.kind ≠ .delimiters opening closing := by simp [tokens]
  have kept : keptText (groupsOf tokens) = "{{#a}}{{/a}}\n" := by
    decide +kernel
  obtain ⟨again, readAgain, ignores⟩ := tokenize_keptText read unchanged
  rw [kept] at readAgain
  have nothing : ¬ Ignores (groupsOf again) := by
    have whole : again = (tokenize "main"
        "{{#a}}{{/a}}\n").toOption.getD [] := by rw [readAgain]; rfl
    rw [whole]
    decide +kernel
  exact ⟨tokens, again, read, unchanged, kept, readAgain, nothing, fun rejoins =>
    nothing (ignores.mpr rejoins)⟩

/-- A line of its own in front of a blank line gives up its line ending, and its tag then makes the
blank line a line of its own. -/
theorem ignores_behind_own_line :
    ∃ tokens again,
      tokenize "main" "{{#a}}\n\nx" = .ok tokens ∧
        (∀ token ∈ tokens, ∀ opening closing, token.kind ≠ .delimiters opening closing) ∧
        tokenize "main" (keptText (groupsOf tokens)) = .ok again ∧ Ignores (groupsOf again) := by
  let tokens : List Token := [⟨.tag .openSection "a", ⟨"main", 1, 1, "{{#a}}"⟩,
    "{{#a}}"⟩, ⟨.newline .lf, ⟨"main", 1, 7, "{{#a}}"⟩, "\n"⟩,
    ⟨.newline .lf, ⟨"main", 2, 1, ""⟩, "\n"⟩, ⟨.text "x", ⟨"main", 3, 1, "x"⟩, "x"⟩,
    ⟨.eof, ⟨"main", 3, 2, "x"⟩, ""⟩]
  let again := (tokenize "main" "{{#a}}\nx").toOption.getD []
  have kept : keptText (groupsOf tokens) = "{{#a}}\nx" := by decide +kernel
  refine ⟨tokens, again, by decide +kernel, by simp [tokens], ?_, by decide +kernel⟩
  rw [kept]
  decide +kernel

end Stencil
