import Mathlib.Data.List.Basic
import Stencil.Compile.Basic

/-!
The groups of a template hold its tokens in order: classification adds roles to them, and a template
that is no parent keeps its blocks.
-/

namespace Stencil

namespace LineClassifier

variable {atLineStart next : Bool} {tokens : List Token}

theorem map_token_zipWith (roles : List Role) (tokens : List Token) :
    (List.zipWith LineToken.of roles tokens).map LineToken.token = tokens.take roles.length := by
  induction roles generalizing tokens with
  | nil => simp
  | cons role roles ih =>
      cases tokens with
      | nil => simp
      | cons token tokens => simp [LineToken.of, ih]

theorem map_token_group {group : LineGroup}
    (found : group? atLineStart tokens = some (group, next)) :
    group.map LineToken.token ++ tokens.drop group.length = tokens := by
  simp only [group?] at found
  split at found
  · simp only [Option.map_eq_some_iff, Prod.exists, Prod.mk.injEq] at found
    obtain ⟨roles, after, -, rfl, -⟩ := found
    rw [map_token_zipWith, List.length_zipWith]
    rcases Nat.le_total roles.length tokens.length with fewer | more
    · rw [Nat.min_eq_left fewer, List.take_append_drop]
    · rw [Nat.min_eq_right more, List.take_of_length_le more, List.drop_length, List.append_nil]
  · simp at found

theorem token_single (token : Token) : (single token).map LineToken.token = [token] := rfl

theorem map_token_drain (atLineStart : Bool) (tokens : List Token) :
    (drain atLineStart tokens).flatten.map LineToken.token = tokens := by
  fun_induction drain atLineStart tokens with
  | case1 => rfl
  | case2 => rfl
  | case3 atLineStart first second rest group next decided ih =>
      rw [List.flatten_cons, List.map_append, ih]
      exact map_token_group decided
  | case4 atLineStart first second rest undecided ih =>
      rw [List.flatten_cons, List.map_append, ih, token_single]
      rfl

theorem map_token_push (state : LineClassifier) (token : Token) :
    (state.push token).1.flatten.map LineToken.token ++ (state.push token).2.pending =
      state.pending ++ [token] := by
  unfold push
  dsimp only
  split
  · rw [map_token_drain]
    exact List.append_nil _
  · split
    · next found => simpa using map_token_group found
    · split
      · next first rest filled =>
          rw [filled]
          split
          · simp [token_single]
          · simp
      · next empty => simp at empty

theorem map_token_pushAll (state : LineClassifier) (tokens : List Token) :
    (state.pushAll tokens).1.flatten.map LineToken.token ++ (state.pushAll tokens).2.pending =
      state.pending ++ tokens := by
  induction tokens generalizing state with
  | nil => simp [pushAll]
  | cons token rest ih =>
      have here := map_token_push state token
      have further := ih (state.push token).2
      simp only [pushAll, List.flatten_append, List.map_append, List.append_assoc]
      rw [further, ← List.append_assoc, here]
      simp

theorem token_mem_of_mem_groupsOf {t : LineToken} (member : t ∈ (groupsOf tokens).flatten) :
    t.token ∈ tokens := by
  have whole := map_token_pushAll start tokens
  rw [show start.pending ++ tokens = tokens from rfl] at whole
  rw [← whole]
  exact List.mem_append_left _ (List.mem_map_of_mem member)

end LineClassifier

namespace BlockReplacement

def after (s : BlockReplacement) (tokens : List Token) : BlockReplacement :=
  tokens.foldl (fun s token => (s.replace token).2) s

theorem replaceAll_cons (s : BlockReplacement) (token : Token) (rest : List Token) :
    s.replaceAll (token :: rest) = (s.replace token).1 ++ (s.replace token).2.replaceAll rest := rfl

theorem replaceAll_append (s : BlockReplacement) (front more : List Token) :
    s.replaceAll (front ++ more) = s.replaceAll front ++ (s.after front).replaceAll more := by
  induction front generalizing s with
  | nil => rfl
  | cons token front ih =>
      rw [List.cons_append, replaceAll_cons, replaceAll_cons, ih, List.append_assoc]
      rfl

theorem after_append (s : BlockReplacement) (front more : List Token) :
    s.after (front ++ more) = (s.after front).after more := List.foldl_append ..

theorem replaceAll_ungiven {s : BlockReplacement} {tokens : List Token}
    (none : ∀ token ∈ tokens, ∀ name, token.kind = .tag .openBlock name →
      s.blocks.find? name = Option.none)
    (idle : s.replacing = Option.none) :
    s.replaceAll tokens = tokens ∧ (s.after tokens).blocks = s.blocks ∧
      (s.after tokens).replacing = Option.none := by
  induction tokens generalizing s with
  | nil => exact ⟨rfl, rfl, idle⟩
  | cons token rest ih =>
      obtain ⟨here, further⟩ := List.forall_mem_cons.mp none
      have same : (s.replace token).1 = [token] ∧ (s.replace token).2.blocks = s.blocks ∧
          (s.replace token).2.replacing = Option.none := by
        unfold replace
        rw [idle]
        repeat' split
        all_goals simp_all
      obtain ⟨kept, blocks, replacing⟩ := same
      obtain ⟨more, blocksAfter, replacingAfter⟩ := ih (by rwa [blocks]) replacing
      refine ⟨?_, blocksAfter.trans blocks, replacingAfter⟩
      rw [replaceAll_cons, kept, more]
      rfl

theorem replaceAll_without {s : BlockReplacement} (none : s.blocks = [])
    (idle : s.replacing = Option.none) (tokens : List Token) : s.replaceAll tokens = tokens :=
  (replaceAll_ungiven (fun _ _ _ _ => by rw [none]; rfl) idle).1

end BlockReplacement

namespace Compile

theorem groups_ungiven {body : Body} {lines : List LineGroup}
    (none : ∀ name, body.blocks.find? name = Option.none) (grouped : groups body = .ok lines) :
    ∃ tokens, tokenize body.stack.top.name body.source = .ok tokens ∧
      lines = LineClassifier.groupsOf tokens := by
  rw [groups] at grouped
  cases read : tokenize body.stack.top.name body.source with
  | error problem => simp [read] at grouped
  | ok tokens =>
      simp only [read, Except.ok.injEq] at grouped
      refine ⟨tokens, rfl, ?_⟩
      rw [← grouped, (BlockReplacement.replaceAll_ungiven (fun _ _ name _ => none name) rfl).1]

theorem groups_without {body : Body} {lines : List LineGroup} (none : body.blocks = [])
    (grouped : groups body = .ok lines) :
    ∃ tokens, tokenize body.stack.top.name body.source = .ok tokens ∧
      lines = LineClassifier.groupsOf tokens :=
  groups_ungiven (fun _ => by rw [none]; rfl) grouped

theorem groups_root {schema : Schema} {template : Template} {lines : List LineGroup}
    (grouped : groups (.root schema template) = .ok lines) :
    ∃ tokens, tokenize template.name template.source = .ok tokens ∧
      lines = LineClassifier.groupsOf tokens := groups_without rfl grouped

end Compile

end Stencil
