import Stencil.Proofs.Token.Lines

/-!
Tokens that are undecided. What carries the proof is that a group that can be decided takes its
tokens from the front of what is pending. Main statement: whatever tokens arrive, none is lost, few
are pending, and few are released at a time.
-/

namespace Stencil.LineClassifier

/-- The groups that are released one after another where no more tokens arrive, up to the state in
which nothing is pending. -/
inductive Settles : LineClassifier → List LineGroup → LineClassifier → Prop where
  | empty {atLineStart : Bool} : Settles ⟨[], atLineStart⟩ [] ⟨[], atLineStart⟩
  | last {atLineStart : Bool} (token : Token) :
      Settles ⟨[token], atLineStart⟩ [single token] ⟨[], true⟩
  | group {state settled : LineClassifier} {group : LineGroup} {groups : List LineGroup}
      {next : Bool} : group? state.atLineStart state.pending = some (group, next) →
      Settles ⟨state.pending.drop group.length, next⟩ groups settled →
      Settles state (group :: groups) settled
  | single {first second : Token} {rest : List Token} {atLineStart : Bool}
      {groups : List LineGroup} {settled : LineClassifier} :
      group? atLineStart (first :: second :: rest) = none →
      Settles ⟨second :: rest, first.endsLine⟩ groups settled →
      Settles ⟨first :: second :: rest, atLineStart⟩ (single first :: groups) settled

variable {state : LineClassifier} {group : LineGroup} {token : Token} {tokens : List Token}
  {atLineStart : Bool}

theorem settles_drain (filled : tokens ≠ [])
    (ends : ∀ token ∈ tokens.getLast?, token.endsLine = true) :
    Settles ⟨tokens, atLineStart⟩ (drain atLineStart tokens) start := by
  fun_induction drain atLineStart tokens with
  | case1 => exact absurd rfl filled
  | case2 atLineStart last => exact .last last
  | case3 atLineStart first second rest group next decided ih =>
      refine .group decided ?_
      cases left : (first :: second :: rest).drop group.length with
      | nil =>
          rw [next_of_group? decided ends left, drain]
          exact .empty
      | cons token more =>
          rw [left] at ih
          refine ih (List.cons_ne_nil _ _) ?_
          intro last member
          rw [← left, List.getLast?_drop] at member
          split at member
          · cases member
          · exact ends last member
  | case4 atLineStart first second rest undecided ih =>
      refine .single undecided (ih (List.cons_ne_nil _ _) ?_)
      intro last member
      exact ends last (by simpa using member)

theorem Formed.length_le (formed : Formed group) : 1 ≤ group.length ∧ group.length ≤ 4 := by
  cases formed with
  | single token => simp [LineClassifier.single]
  | pair first standalone => simp
  | line line =>
      obtain ⟨before, tag, after, ending, -, -, -, -⟩ := line
      cases before <;> cases after <;> simp [StandaloneLine.group]

theorem formed_of_mem_push (member : group ∈ (state.push token).1) : Formed group := by
  unfold push at member
  dsimp only at member
  repeat' split at member
  · exact formed_of_mem_drain member
  · next decided =>
      obtain rfl := List.mem_singleton.mp member
      exact formed_of_group? decided
  · obtain rfl := List.mem_singleton.mp member
    exact .single _
  · cases member
  · cases member

theorem length_push_le (within : token.isEof = false) (state : LineClassifier) :
    (state.push token).1.length ≤ 1 := by
  simp only [push, within, Bool.false_eq_true, if_false]
  repeat' split
  all_goals simp

theorem pending_push_le (few : state.pending.length ≤ maxPending) (token : Token) :
    (state.push token).2.pending.length ≤ maxPending := by
  have arrived : (state.pending ++ [token]).length ≤ maxPending + 1 := by simpa using few
  unfold push
  dsimp only
  split
  · exact Nat.zero_le _
  · split
    · next decided =>
        have some := group?_length decided
        rw [List.length_drop]
        omega
    · split
      · next first rest filled =>
          rw [filled] at arrived ⊢
          split
          · simpa using arrived
          · next fits => simpa using fits
      · exact few

theorem formed_of_mem_pushAll (member : group ∈ (state.pushAll tokens).1) : Formed group := by
  induction tokens generalizing state with
  | nil => cases member
  | cons token rest ih =>
      obtain here | later := List.mem_append.mp member
      · exact formed_of_mem_push here
      · exact ih later

theorem pending_pushAll_le (few : state.pending.length ≤ maxPending) (tokens : List Token) :
    (state.pushAll tokens).2.pending.length ≤ maxPending := by
  induction tokens generalizing state with
  | nil => exact few
  | cons token rest ih => exact ih (pending_push_le few token)

/-- Behind any tokens, ends of templates among them, what has been released and what is pending are
these tokens in order. At most five are pending, and every group has one token to four. One more
token releases one group at most, unless it is the end of a template, which releases all that is
pending and leaves the state as it was at the start. -/
theorem pushAll_inOrder (tokens : List Token) :
    let released := (start.pushAll tokens).1
    let state := (start.pushAll tokens).2
    released.flatten.map LineToken.token ++ state.pending = tokens ∧
      state.pending.length ≤ 5 ∧
      (∀ group ∈ released, 1 ≤ group.length ∧ group.length ≤ 4) ∧
      ∀ token,
        (token.isEof = false → (state.push token).1.length ≤ 1) ∧
        (token.isEof = true →
          Settles ⟨state.pending ++ [token], state.atLineStart⟩ (state.push token).1 start ∧
            (state.push token).2 = start) := by
  intro released state
  refine ⟨map_token_pushAll start tokens, pending_pushAll_le (Nat.zero_le _) tokens,
    fun group member => (formed_of_mem_pushAll member).length_le, ?_⟩
  intro token
  refine ⟨fun within => length_push_le within state, ?_⟩
  intro isEof
  have groups : state.push token =
      (drain state.atLineStart (state.pending ++ [token]), start) := by
    unfold push
    rw [isEof]
    rfl
  rw [groups]
  refine ⟨settles_drain (by simp) ?_, rfl⟩
  intro last member
  rw [List.getLast?_concat, Option.mem_some_iff] at member
  subst member
  simp [Token.endsLine, isEof]

/-- A tag at the end of a template, behind another template and some whitespace. -/
theorem pushAll_inOrder_indented :
    let blank : Token := ⟨.whitespace " ", .unknown, " "⟩
    let tag : Token := ⟨.tag .openSection "a", .unknown, ""⟩
    let ending : Token := ⟨.eof, .unknown, ""⟩
    let state := (start.pushAll [ending, blank, tag]).2
    tag.isEof = false ∧ (start.push tag).1.length ≤ 1 ∧ ending.isEof = true ∧
      state.pending = [blank, tag] ∧
      Settles ⟨[blank, tag, ending], true⟩
        [[.of .indent blank, .of .normal tag, .of .ignore ending]] start := by
  intro blank tag ending state
  have whole := (pushAll_inOrder [ending, blank, tag]).2.2.2 ending
  refine ⟨rfl, ((pushAll_inOrder []).2.2.2 tag).1 rfl, rfl, by decide +kernel, ?_⟩
  have released : (state.push ending).1 =
      [[.of .indent blank, .of .normal tag, .of .ignore ending]] := by decide +kernel
  have settles := (whole.2 rfl).1
  rw [released] at settles
  exact settles

end Stencil.LineClassifier
