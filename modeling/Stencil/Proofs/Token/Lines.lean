import Stencil.Proofs.Compile.Groups
import Stencil.Proofs.Results

/-!
Standalone lines, said of whole lines. Main statement: tokens that arrive one by one are grouped
line by line, and what is known of one template has no bearing on the next.
-/

namespace Stencil

/-- A line that holds a structural tag, with at most one piece of whitespace on either
side of it. -/
structure StandaloneLine where
  before : Option Token
  tag : Token
  after : Option Token
  ending : Token
  before_isWhitespace : ∀ token ∈ before, token.isWhitespace = true
  tag_isStandalone : tag.isStandalone = true
  after_isWhitespace : ∀ token ∈ after, token.isWhitespace = true
  ending_endsLine : ending.endsLine = true

namespace StandaloneLine

def tokens (line : StandaloneLine) : List Token :=
  line.before.toList ++ line.tag :: (line.after.toList ++ [line.ending])

def group (line : StandaloneLine) : LineGroup :=
  line.before.toList.map (LineToken.of .indent) ++
    LineToken.of .normal line.tag ::
      (line.after.toList ++ [line.ending]).map (LineToken.of .ignore)

end StandaloneLine

/-- The groups that a line is released in: one if it is standalone, and else any that leave all of
its tokens in the output. -/
inductive Grouped : List Token → List LineGroup → Prop where
  | standalone (line : StandaloneLine) : Grouped line.tokens [line.group]
  | plain {tokens : List Token} {groups : List LineGroup} :
      (∀ line : StandaloneLine, line.tokens ≠ tokens) →
      groups.flatten = tokens.map (LineToken.of .normal) → Grouped tokens groups

/-- The lines of a template, each with the newline or the end of the template that ends it. -/
def Token.lines : List Token → List (List Token)
  | [] => []
  | token :: rest =>
      if token.endsLine then [token] :: lines rest
      else
        match lines rest with
        | [] => [[token]]
        | line :: more => (token :: line) :: more

def Token.EndsOnce (tokens : List Token) : Prop :=
  ∃ body ending, tokens = body ++ [ending] ∧ ending.isEof = true ∧ ∀ t ∈ body, t.isEof = false

namespace Token

variable {token : Token} {tokens front more : List Token}

theorem lines_append (inside : ∀ t ∈ front, t.endsLine = false) (ends : token.endsLine = true)
    (more : List Token) : lines (front ++ token :: more) = (front ++ [token]) :: lines more := by
  induction front with
  | nil => simp [lines, ends]
  | cons first front ih =>
      obtain ⟨here, further⟩ := List.forall_mem_cons.mp inside
      simp [lines, here, ih further]

theorem flatten_lines (tokens : List Token) : (lines tokens).flatten = tokens := by
  induction tokens with
  | nil => rfl
  | cons token rest ih =>
      unfold lines
      split
      · rw [List.flatten_cons, ih, List.singleton_append]
      · split
        · next none =>
            rw [none] at ih
            rw [← ih]
            rfl
        · next line more some =>
            rw [some] at ih
            rw [← ih]
            rfl

theorem EndsOnce.exists_line (ends : EndsOnce tokens) :
    ∃ front ending more, tokens = front ++ ending :: more ∧
      (∀ t ∈ front, t.endsLine = false) ∧ ending.endsLine = true ∧
      (more = [] ∨ ending.isEof = false ∧ EndsOnce more) := by
  obtain ⟨body, last, rfl, isEof, others⟩ := ends
  induction body with
  | nil => exact ⟨[], last, [], rfl, by simp, by simp [endsLine, isEof], .inl rfl⟩
  | cons first body ih =>
      obtain ⟨notEof, inner⟩ := List.forall_mem_cons.mp others
      cases newline : first.endsLine with
      | true =>
          exact ⟨[], first, body ++ [last], rfl, by simp, newline,
            .inr ⟨notEof, body, last, rfl, isEof, inner⟩⟩
      | false =>
          obtain ⟨front, ending, more, same, inside, ends, rest⟩ := ih inner
          exact ⟨first :: front, ending, more, by rw [List.cons_append, same, List.cons_append],
            List.forall_mem_cons.mpr ⟨newline, inside⟩, ends, rest⟩

theorem isEof_iff : token.isEof = true ↔ token.kind = .eof := by
  obtain ⟨kind, position, raw⟩ := token
  cases kind <;> simp [isEof]

theorem isNewline_iff : token.isNewline = true ↔ ∃ ending, token.kind = .newline ending := by
  obtain ⟨kind, position, raw⟩ := token
  cases kind <;> simp [isNewline]

theorem isSome_tag?_of_isStandalone (standalone : token.isStandalone = true) :
    token.tag?.isSome = true := by
  obtain ⟨kind, position, raw⟩ := token
  cases kind <;> first | rfl | cases standalone

theorem endsLine_of_tag (tag : token.tag?.isSome = true) : token.endsLine = false := by
  obtain ⟨kind, position, raw⟩ := token
  cases kind <;> first | rfl | cases tag

theorem isWhitespace_of_tag (tag : token.tag?.isSome = true) : token.isWhitespace = false := by
  obtain ⟨kind, position, raw⟩ := token
  cases kind <;> first | rfl | cases tag

theorem endsLine_of_isStandalone (standalone : token.isStandalone = true) :
    token.endsLine = false := endsLine_of_tag (isSome_tag?_of_isStandalone standalone)

theorem endsLine_of_isWhitespace (whitespace : token.isWhitespace = true) :
    token.endsLine = false := by
  obtain ⟨kind, position, raw⟩ := token
  cases kind <;> first | rfl | cases whitespace

theorem isWhitespace_of_isStandalone (standalone : token.isStandalone = true) :
    token.isWhitespace = false := isWhitespace_of_tag (isSome_tag?_of_isStandalone standalone)

end Token

theorem LineToken.role_of_tag {token : Token} (tag : token.tag?.isSome = true) :
    (LineToken.of .normal token).role = .normal := by
  have inside := Token.endsLine_of_tag tag
  simp only [Token.endsLine, Bool.or_eq_false_iff] at inside
  simp [LineToken.of, inside.2]

theorem LineToken.role_of_normal {token : Token} (standalone : token.isStandalone = true) :
    (LineToken.of .normal token).role = .normal :=
  role_of_tag (Token.isSome_tag?_of_isStandalone standalone)

theorem LineToken.role_ne {role other : Role} (apart : role ≠ other) (inside : Role.eof ≠ other)
    (token : Token) : (LineToken.of role token).role ≠ other := by
  unfold LineToken.of
  dsimp only
  split
  · exact inside
  · exact apart

theorem LineToken.role_ne_of_mem {role other : Role} (apart : role ≠ other)
    (inside : Role.eof ≠ other) {tokens : List Token} :
    ∀ t ∈ tokens.map (LineToken.of role), t.role ≠ other := by
  intro t member
  obtain ⟨token, -, rfl⟩ := List.mem_map.mp member
  exact LineToken.role_ne apart inside token

theorem Grouped.role_of_tag {line : List Token} {groups : List LineGroup}
    (grouped : Grouped line groups) {t : LineToken} (member : t ∈ groups.flatten)
    (tag : t.token.tag?.isSome = true) : t.role = .normal := by
  cases grouped with
  | standalone line =>
      have blank (token : Token) (whitespace : token.isWhitespace = true)
          (tag : token.tag?.isSome = true) : False := by
        cases whitespace.symm.trans (Token.isWhitespace_of_tag tag)
      simp only [List.flatten_cons, List.flatten_nil, List.append_nil, StandaloneLine.group,
        List.map_append, List.mem_append, List.mem_map, List.mem_cons, Option.mem_toList,
        List.map_cons, List.map_nil, List.not_mem_nil, or_false] at member
      obtain ⟨token, before, rfl⟩ | rfl | ⟨token, after, rfl⟩ | rfl := member
      · exact (blank token (line.before_isWhitespace token before) tag).elim
      · exact LineToken.role_of_normal line.tag_isStandalone
      · exact (blank token (line.after_isWhitespace token after) tag).elim
      · cases line.ending_endsLine.symm.trans (Token.endsLine_of_tag tag)
  | plain _ normal =>
      rw [normal] at member
      obtain ⟨token, -, rfl⟩ := List.mem_map.mp member
      exact LineToken.role_of_tag tag

namespace LineClassifier

open Token

variable {atLineStart next : Bool} {token : Token} {tokens front more : List Token}
  {group : LineGroup} {roles : List Role}

theorem lineRoles?_append (decided : lineRoles? tokens = some (roles, next)) (more : List Token) :
    lineRoles? (tokens ++ more) = some (roles, next) := by
  obtain _ | ⟨first, _ | ⟨second, _ | ⟨third, _ | ⟨fourth, rest⟩⟩⟩⟩ := tokens
  · simp [lineRoles?] at decided
  · simp [lineRoles?] at decided
  · simp only [lineRoles?, List.cons_append, List.nil_append] at decided ⊢
    grind
  · simp only [lineRoles?, List.cons_append, List.nil_append] at decided ⊢
    grind
  · exact decided

theorem lineRoles?_of_four (many : 4 ≤ tokens.length) (more : List Token) :
    lineRoles? (tokens ++ more) = lineRoles? tokens := by
  obtain _ | ⟨first, _ | ⟨second, _ | ⟨third, _ | ⟨fourth, rest⟩⟩⟩⟩ := tokens
  · simp at many
  · simp at many
  · simp at many
  · simp at many
  · rfl

theorem length_roles_le (decided : lineRoles? tokens = some (roles, next)) :
    roles.length ≤ tokens.length := by
  obtain _ | ⟨first, _ | ⟨second, _ | ⟨third, _ | ⟨fourth, rest⟩⟩⟩⟩ := tokens
  all_goals
    simp only [lineRoles?] at decided
    repeat' split at decided
  all_goals simp_all only [reduceCtorEq, Option.some.injEq, Prod.mk.injEq]
  all_goals
    obtain ⟨rfl, rfl⟩ := decided
    simp

theorem zipWith_take (known : roles.length ≤ tokens.length) :
    List.zipWith LineToken.of roles tokens =
      List.zipWith LineToken.of roles (tokens.take roles.length) := by
  rw [List.zipWith_eq_zipWith_take_min]
  simp [Nat.min_eq_left known]

theorem group?_false (tokens : List Token) : group? false tokens = none := rfl

theorem group?_append (decided : group? atLineStart tokens = some (group, next))
    (more : List Token) : group? atLineStart (tokens ++ more) = some (group, next) := by
  cases atLineStart with
  | false => cases decided
  | true =>
      simp only [group?, if_true, Option.map_eq_some_iff, Prod.exists, Prod.mk.injEq] at decided ⊢
      obtain ⟨roles, after, found, rfl, rfl⟩ := decided
      refine ⟨roles, after, lineRoles?_append found more, ?_, rfl⟩
      have known := length_roles_le found
      rw [zipWith_take (Nat.le_trans known (by simp)), zipWith_take known,
        List.take_append_of_le_length known]

theorem length_le_of_group? (decided : group? atLineStart tokens = some (group, next)) :
    group.length ≤ tokens.length := by
  have whole := congrArg List.length (map_token_group decided)
  simp only [List.length_append, List.length_map, List.length_drop] at whole
  omega

theorem group?_of_four (many : 4 ≤ tokens.length) (undecided : group? atLineStart tokens = none)
    (more : List Token) : group? atLineStart (tokens ++ more) = none := by
  cases atLineStart with
  | false => rfl
  | true =>
      simp only [group?, if_true, Option.map_eq_none_iff] at undecided ⊢
      rw [lineRoles?_of_four many, undecided]

theorem drain_group (decided : group? atLineStart tokens = some (group, next)) :
    drain atLineStart tokens = group :: drain next (tokens.drop group.length) := by
  obtain _ | ⟨first, _ | ⟨second, rest⟩⟩ := tokens
  · cases atLineStart <;> cases decided
  · cases atLineStart <;> cases decided
  · rw [drain]
    split
    · next found =>
        cases decided.symm.trans found
        rfl
    · next undecided => cases decided.symm.trans undecided

theorem drain_single (undecided : group? atLineStart (token :: tokens) = none) :
    drain atLineStart (token :: tokens) = single token :: drain token.endsLine tokens := by
  cases tokens with
  | nil => simp [drain]
  | cons second rest =>
      rw [drain]
      split
      · next found => cases undecided.symm.trans found
      · rfl

theorem pushAll_template (state : LineClassifier) {ending : Token}
    (others : ∀ t ∈ front, t.isEof = false) (isEof : ending.isEof = true) :
    state.pushAll (front ++ [ending]) =
      (drain state.atLineStart (state.pending ++ front ++ [ending]), start) := by
  induction front generalizing state with
  | nil => simp [pushAll, push, isEof]
  | cons token front ih =>
      obtain ⟨notEof, inner⟩ := List.forall_mem_cons.mp others
      have arrived : state.pending ++ token :: front ++ [ending] =
          (state.pending ++ [token]) ++ (front ++ [ending]) := by simp
      simp only [List.cons_append, pushAll, arrived]
      simp only [push, notEof, Bool.false_eq_true, if_false]
      split
      · next group next decided =>
          rw [ih _ inner, drain_group (group?_append decided _),
            List.drop_append_of_le_length (length_le_of_group? decided), List.append_assoc]
          rfl
      · next undecided =>
          split
          · next first rest filled =>
              rw [filled] at undecided ⊢
              split
              · next full =>
                  have many : 4 ≤ (first :: rest).length := by simp [maxPending] at full ⊢; omega
                  have still := group?_of_four many undecided (front ++ [ending])
                  have released : drain state.atLineStart (first :: rest ++ (front ++ [ending])) =
                      single first :: drain first.endsLine (rest ++ (front ++ [ending])) :=
                    drain_single still
                  rw [ih _ inner, released, List.append_assoc]
                  rfl
              · rw [ih _ inner, List.append_assoc]
                rfl
          · next empty => simp at empty

theorem groupsOf_eq_drain (ends : EndsOnce tokens) : groupsOf tokens = drain true tokens := by
  obtain ⟨body, ending, rfl, isEof, others⟩ := ends
  exact congrArg Prod.fst (pushAll_template start others isEof)

theorem pushAll_append (state : LineClassifier) (front more : List Token) :
    state.pushAll (front ++ more) =
      ((state.pushAll front).1 ++ ((state.pushAll front).2.pushAll more).1,
        ((state.pushAll front).2.pushAll more).2) := by
  induction front generalizing state with
  | nil => rfl
  | cons token front ih => simp [pushAll, ih]

theorem pushAll_flatten {templates : List (List Token)}
    (ends : ∀ tokens ∈ templates, EndsOnce tokens) :
    start.pushAll templates.flatten = (templates.flatMap groupsOf, start) := by
  induction templates with
  | nil => rfl
  | cons tokens templates ih =>
      obtain ⟨here, further⟩ := List.forall_mem_cons.mp ends
      obtain ⟨body, ending, rfl, isEof, others⟩ := here
      have cleared : (start.pushAll (body ++ [ending])).2 = start :=
        congrArg Prod.snd (pushAll_template start others isEof)
      rw [List.flatten_cons, pushAll_append, cleared, ih further]
      rfl

theorem drain_inside (inside : ∀ t ∈ front, t.endsLine = false) (more : List Token) :
    drain false (front ++ more) = front.map single ++ drain false more := by
  induction front with
  | nil => rfl
  | cons first front ih =>
      obtain ⟨here, further⟩ := List.forall_mem_cons.mp inside
      rw [List.cons_append, drain_single (group?_false _), here, ih further]
      rfl

theorem drain_within (inside : ∀ t ∈ front, t.endsLine = false) (ends : token.endsLine = true)
    (more : List Token) :
    drain false (front ++ token :: more) = (front ++ [token]).map single ++ drain true more := by
  rw [drain_inside inside, drain_single (group?_false _), ends]
  simp

theorem flatten_map_single (tokens : List Token) :
    (tokens.map single).flatten = tokens.map (LineToken.of .normal) := by
  induction tokens with
  | nil => rfl
  | cons token tokens ih => simp [single, ih]

theorem group?_cases (decided : group? true tokens = some (group, next)) :
    (∃ first tag more, tokens = first :: tag :: more ∧ tag.isStandalone = true ∧
      first.isNewline = false ∧ first.isWhitespace = false ∧
      group = [.of .normal first, .of .normal tag] ∧ next = false) ∨
    ∃ (line : StandaloneLine) (more : List Token),
      tokens = line.tokens ++ more ∧ group = line.group ∧ next = true := by
  simp only [group?, if_true, Option.map_eq_some_iff, Prod.exists, Prod.mk.injEq] at decided
  obtain ⟨roles, after, found, rfl, rfl⟩ := decided
  obtain _ | ⟨first, _ | ⟨second, rest⟩⟩ := tokens
  · simp [lineRoles?] at found
  · simp [lineRoles?] at found
  · simp only [lineRoles?] at found
    split at found
    · next tagged =>
        simp only [Bool.and_eq_true, Bool.not_eq_true', Bool.or_eq_false_iff] at tagged
        cases found
        exact .inl ⟨first, second, rest, rfl, tagged.2, tagged.1.1, tagged.1.2, rfl, rfl⟩
    · right
      split at found
      · next alone =>
          obtain ⟨tag, ends⟩ := Bool.and_eq_true_iff.mp alone
          cases found
          exact ⟨⟨none, first, none, second, by simp, tag, by simp, ends⟩, rest, rfl, rfl, rfl⟩
      · obtain _ | ⟨third, rest⟩ := rest
        · cases found
        · dsimp only at found
          split at found
          · next spaced =>
              simp only [Bool.and_eq_true] at spaced
              obtain ⟨⟨tag, after⟩, ends⟩ := spaced
              cases found
              exact ⟨⟨none, first, some second, third, by simp, tag, by simpa using after, ends⟩,
                rest, rfl, rfl, rfl⟩
          · split at found
            · next indented =>
                simp only [Bool.and_eq_true] at indented
                obtain ⟨⟨before, tag⟩, ends⟩ := indented
                cases found
                exact ⟨⟨some first, second, none, third, by simpa using before, tag, by simp,
                  ends⟩, rest, rfl, rfl, rfl⟩
            · obtain _ | ⟨fourth, rest⟩ := rest
              · cases found
              · dsimp only at found
                split at found
                · next both =>
                    simp only [Bool.and_eq_true] at both
                    obtain ⟨⟨⟨before, tag⟩, after⟩, ends⟩ := both
                    cases found
                    exact ⟨⟨some first, second, some third, fourth, by simpa using before, tag,
                      by simpa using after, ends⟩, rest, rfl, rfl, rfl⟩
                · cases found

theorem next_of_group? (decided : group? atLineStart front = some (group, next))
    (ends : ∀ token ∈ front.getLast?, token.endsLine = true)
    (whole : front.drop group.length = []) : next = true := by
  cases atLineStart with
  | false => cases decided
  | true =>
      obtain ⟨first, tag, rest, rfl, standalone, -, -, rfl, rfl⟩ | ⟨line, rest, -, -, starts⟩ :=
        group?_cases decided
      · obtain rfl : rest = [] := whole
        cases (ends tag rfl).symm.trans (endsLine_of_isStandalone standalone)
      · exact starts

theorem group?_tokens (line : StandaloneLine) (more : List Token) :
    group? true (line.tokens ++ more) = some (line.group, true) := by
  obtain ⟨before, tag, after, ending, before_isWhitespace, tag_isStandalone,
    after_isWhitespace, ending_endsLine⟩ := line
  have notBlank := isWhitespace_of_isStandalone tag_isStandalone
  have inside := endsLine_of_isStandalone tag_isStandalone
  have notAhead : ∀ blank : Token, blank.isWhitespace = true →
      blank.isStandalone = false ∧ blank.endsLine = false := by
    intro blank whitespace
    refine ⟨?_, endsLine_of_isWhitespace whitespace⟩
    by_contra standalone
    rw [Bool.not_eq_false] at standalone
    cases whitespace.symm.trans (isWhitespace_of_isStandalone standalone)
  have notLast : ending.isStandalone = false := by
    by_contra standalone
    rw [Bool.not_eq_false] at standalone
    cases ending_endsLine.symm.trans (endsLine_of_isStandalone standalone)
  cases before <;> cases after <;>
    simp_all [StandaloneLine.tokens, StandaloneLine.group, group?, lineRoles?, List.zipWith]

theorem lines_tokens (line : StandaloneLine) (more : List Token) :
    lines (line.tokens ++ more) = line.tokens :: lines more := by
  have inside : ∀ t ∈ line.before.toList ++ line.tag :: line.after.toList, t.endsLine = false := by
    intro t member
    simp only [List.mem_append, List.mem_cons, Option.mem_toList] at member
    obtain before | rfl | after := member
    · exact endsLine_of_isWhitespace (line.before_isWhitespace t before)
    · exact endsLine_of_isStandalone line.tag_isStandalone
    · exact endsLine_of_isWhitespace (line.after_isWhitespace t after)
  have cut := lines_append inside line.ending_endsLine more
  simpa [StandaloneLine.tokens] using cut

theorem drain_plain (inside : ∀ t ∈ front, t.endsLine = false) (ends : token.endsLine = true)
    (final : more = [] ∨ token.isEof = false)
    (plain : ∀ line : StandaloneLine, line.tokens ≠ front ++ [token]) :
    ∃ groups : List LineGroup, groups.flatten = (front ++ [token]).map (LineToken.of .normal) ∧
      drain true (front ++ token :: more) = groups ++ drain true more := by
  cases decided : group? true (front ++ token :: more) with
  | none =>
      refine ⟨(front ++ [token]).map single, flatten_map_single _, ?_⟩
      cases front with
      | nil => simp [drain_single decided, ends]
      | cons first front =>
          obtain ⟨here, further⟩ := List.forall_mem_cons.mp inside
          have released : drain true (first :: front ++ token :: more) =
              single first :: drain first.endsLine (front ++ token :: more) := drain_single decided
          rw [released, here, drain_within further ends]
          rfl
  | some found =>
      obtain ⟨group, next⟩ := found
      obtain ⟨first, tag, rest, same, standalone, notNewline, -, rfl, rfl⟩ |
          ⟨line, rest, same, -⟩ :=
        group?_cases decided
      · obtain _ | ⟨one, _ | ⟨two, front⟩⟩ := front
        all_goals simp only [List.nil_append, List.cons_append, List.cons.injEq] at same
        · obtain ⟨rfl, rfl⟩ := same
          obtain none | notEof := final
          · cases none
          · simp [endsLine, notNewline, notEof] at ends
        · obtain ⟨rfl, rfl, rfl⟩ := same
          cases ends.symm.trans (endsLine_of_isStandalone standalone)
        · obtain ⟨rfl, rfl, rfl⟩ := same
          have further : ∀ t ∈ front, t.endsLine = false := by
            intro t member
            exact inside t (by simp [member])
          refine ⟨[.of .normal one, .of .normal two] :: (front ++ [token]).map single, ?_, ?_⟩
          · rw [List.flatten_cons, flatten_map_single]
            rfl
          · rw [drain_group decided]
            exact congrArg _ (drain_within further ends more)
      · have cut := lines_append inside ends more
        rw [same, lines_tokens] at cut
        exact absurd (List.cons.inj cut).1 (plain line)

theorem exists_grouped_line (inside : ∀ t ∈ front, t.endsLine = false)
    (ends : token.endsLine = true) (final : more = [] ∨ token.isEof = false) :
    ∃ groups, Grouped (front ++ [token]) groups ∧
      drain true (front ++ token :: more) = groups ++ drain true more := by
  by_cases standalone : ∃ line : StandaloneLine, line.tokens = front ++ [token]
  · obtain ⟨line, same⟩ := standalone
    refine ⟨[line.group], same ▸ .standalone line, ?_⟩
    have whole : front ++ token :: more = line.tokens ++ more := by simp [same]
    have length : line.group.length = line.tokens.length := by
      simp [StandaloneLine.group, StandaloneLine.tokens]
    rw [whole, drain_group (group?_tokens line more), length, List.drop_left]
    rfl
  · have plain : ∀ line : StandaloneLine, line.tokens ≠ front ++ [token] := by
      intro line same
      exact standalone ⟨line, same⟩
    obtain ⟨groups, normal, released⟩ := drain_plain inside ends final plain
    exact ⟨groups, .plain plain normal, released⟩

/-- The end of a template decides its tokens line by line. -/
theorem exists_grouped_lines (ends : EndsOnce tokens) :
    ∃ parts, List.Forall₂ Grouped (lines tokens) parts ∧ drain true tokens = parts.flatten := by
  induction size : tokens.length using Nat.strongRecOn generalizing tokens with
  | ind n shorter =>
      obtain ⟨front, ending, more, rfl, inside, endsLine, rest⟩ := ends.exists_line
      have final : more = [] ∨ ending.isEof = false := rest.imp id And.left
      obtain ⟨groups, grouped, released⟩ := exists_grouped_line inside endsLine final
      rw [lines_append inside endsLine, released]
      obtain rfl | ⟨-, further⟩ := rest
      · exact ⟨[groups], .cons grouped .nil, by simp [drain]⟩
      · have fewer : more.length < n := by
          simp only [List.length_append, List.length_cons] at size
          omega
        obtain ⟨parts, each, whole⟩ := shorter _ fewer further rfl
        exact ⟨groups :: parts, .cons grouped each, by rw [whole, List.flatten_cons]⟩

theorem groupsOf_tokens (line : StandaloneLine) {last : Token}
    (newline : line.ending.isEof = false) (isEof : last.isEof = true) :
    groupsOf (line.tokens ++ [last]) = [line.group, single last] := by
  have inside (token : Token) (within : token.endsLine = false) : token.isEof = false :=
    (Bool.or_eq_false_iff.mp within).2
  have others : ∀ t ∈ line.tokens, t.isEof = false := by
    intro t member
    simp only [StandaloneLine.tokens, List.mem_append, List.mem_cons, Option.mem_toList,
      List.not_mem_nil, or_false] at member
    obtain before | rfl | after | rfl := member
    · exact inside t (endsLine_of_isWhitespace (line.before_isWhitespace t before))
    · exact inside line.tag (endsLine_of_isStandalone line.tag_isStandalone)
    · exact inside t (endsLine_of_isWhitespace (line.after_isWhitespace t after))
    · exact newline
  have length : line.group.length = line.tokens.length := by
    simp [StandaloneLine.group, StandaloneLine.tokens]
  rw [groupsOf_eq_drain ⟨line.tokens, last, rfl, isEof, others⟩,
    drain_group (group?_tokens line [last]), length, List.drop_left, drain]

inductive Formed : LineGroup → Prop where
  | single (token : Token) : Formed (single token)
  | pair (first : Token) {tag : Token} : tag.isStandalone = true →
      Formed [.of .normal first, .of .normal tag]
  | line (line : StandaloneLine) : Formed line.group

theorem formed_of_group? (decided : group? atLineStart tokens = some (group, next)) :
    Formed group := by
  cases atLineStart with
  | false => cases decided
  | true =>
      obtain ⟨one, tag, more, -, standalone, -, -, rfl, -⟩ | ⟨line, more, -, rfl, -⟩ :=
        group?_cases decided
      · exact .pair one standalone
      · exact .line line

theorem formed_of_mem_drain (member : group ∈ drain atLineStart tokens) : Formed group := by
  fun_induction drain atLineStart tokens with
  | case1 => cases member
  | case2 atLineStart last =>
      obtain rfl := List.mem_singleton.mp member
      exact .single last
  | case3 atLineStart first second rest found next decided ih =>
      obtain rfl | later := List.mem_cons.mp member
      · exact formed_of_group? decided
      · exact ih later
  | case4 atLineStart first second rest undecided ih =>
      obtain rfl | later := List.mem_cons.mp member
      · exact .single first
      · exact ih later

theorem Formed.role_getLast (formed : Formed group) : ∀ t ∈ group.getLast?, t.role ≠ .indent := by
  intro t last
  cases formed with
  | single token | pair _ _ =>
      obtain rfl := Option.some.inj last
      exact LineToken.role_ne (by decide) (by decide) _
  | line line =>
      rw [StandaloneLine.group, List.map_append, ← List.cons_append, ← List.append_assoc,
        List.map_singleton, List.getLast?_concat] at last
      obtain rfl := Option.some.inj last
      exact LineToken.role_ne (by decide) (by decide) _

theorem map_token_groupsOf {tokens : List Token} (ends : Token.EndsOnce tokens) :
    (groupsOf tokens).flatten.map LineToken.token = tokens := by
  rw [groupsOf_eq_drain ends, map_token_drain]

theorem role_of_tag {tokens : List Token} (ends : Token.EndsOnce tokens) {t : LineToken}
    (member : t ∈ (groupsOf tokens).flatten) (tag : t.token.tag?.isSome = true) :
    t.role = .normal := by
  obtain ⟨parts, each, whole⟩ := exists_grouped_lines ends
  rw [groupsOf_eq_drain ends, whole] at member
  obtain ⟨group, within, member⟩ := List.mem_flatten.mp member
  obtain ⟨groups, part, within⟩ := List.mem_flatten.mp within
  obtain ⟨line, grouped⟩ := exists_of_mem_forall₂ each part
  exact Grouped.role_of_tag grouped (List.mem_flatten.mpr ⟨group, within, member⟩) tag

theorem role_of_isStandalone {tokens : List Token} (ends : Token.EndsOnce tokens) {t : LineToken}
    (member : t ∈ (groupsOf tokens).flatten) (standalone : t.token.isStandalone = true) :
    t.role = .normal := role_of_tag ends member (isSome_tag?_of_isStandalone standalone)

theorem of_normal_of_mem {tokens : List Token} (ends : Token.EndsOnce tokens) {t : LineToken}
    (member : t ∈ (groupsOf tokens).flatten) (standalone : t.token.isStandalone = true) :
    LineToken.of .normal t.token = t := by
  obtain ⟨token, role⟩ := t
  obtain rfl : role = .normal := role_of_isStandalone ends member standalone
  exact congrArg (LineToken.mk token) (LineToken.role_of_normal standalone)

/-- Tokens of several templates that arrive one after the other are released in order, as if each
template arrived alone, and each template is released line by line. -/
theorem pushAll_templates (templates : List (List Token))
    (ends : ∀ tokens ∈ templates, EndsOnce tokens) :
    start.pushAll templates.flatten = (templates.flatMap groupsOf, start) ∧
      (templates.flatMap groupsOf).flatten.map LineToken.token = templates.flatten ∧
      ∀ tokens ∈ templates, (lines tokens).flatten = tokens ∧
        ∃ parts : List (List LineGroup),
          List.Forall₂ Grouped (lines tokens) parts ∧ groupsOf tokens = parts.flatten := by
  have released := pushAll_flatten ends
  refine ⟨released, ?_, ?_⟩
  · have inOrder := map_token_pushAll start templates.flatten
    rw [released] at inOrder
    simpa [start] using inOrder
  · intro tokens member
    rw [groupsOf_eq_drain (ends tokens member)]
    exact ⟨flatten_lines tokens, exists_grouped_lines (ends tokens member)⟩

theorem pushAll_templates_indented :
    ∃ blank tag ending : Token, blank.isWhitespace ∧ tag.isStandalone ∧ ending.isEof ∧
      (∀ tokens ∈ [[blank, tag, ending], [ending]], EndsOnce tokens) ∧
      start.pushAll [blank, tag, ending, ending] =
        ([[.of .indent blank, .of .normal tag, .of .ignore ending], [.of .normal ending]],
          start) := by
  refine ⟨⟨.whitespace " ", .unknown, " "⟩, ⟨.tag .openSection "a", .unknown, ""⟩,
    ⟨.eof, .unknown, ""⟩, rfl, rfl, rfl, ?_⟩
  have ends : ∀ tokens ∈ [[⟨.whitespace " ", .unknown, " "⟩,
      ⟨.tag .openSection "a", .unknown, ""⟩, ⟨.eof, .unknown, ""⟩],
      [(⟨.eof, .unknown, ""⟩ : Token)]], EndsOnce tokens := by
    simp only [List.forall_mem_cons, List.not_mem_nil, false_implies, implies_true, and_true]
    exact ⟨⟨[_, _], _, rfl, rfl, by simp [isEof]⟩, ⟨[], _, rfl, rfl, by simp⟩⟩
  have released := (pushAll_templates _ ends).1
  rw [List.flatten_cons, List.flatten_cons, List.flatten_nil] at released
  refine ⟨ends, released.trans ?_⟩
  decide +kernel

end LineClassifier

end Stencil
