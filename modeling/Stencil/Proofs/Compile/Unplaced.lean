import Stencil.Compile.Basic
import Stencil.Proofs.Token.Lines
import Stencil.Proofs.Token.Reading

/-!
Tokens without their places: classification, the blocks of a parent call and their replacement treat
a token in the same way wherever it stands.
-/

namespace Stencil

def Token.isLocal (token : Token) : Bool :=
  match token.kind with
  | .tag .inclusion _ | .tag .openParent _ => false
  | _ => true

namespace Token

@[simp] theorem unplaced_kind (token : Token) : token.unplaced.kind = token.kind := rfl

@[simp] theorem unplaced_isEof (token : Token) : token.unplaced.isEof = token.isEof := rfl

@[simp] theorem unplaced_endsLine (token : Token) : token.unplaced.endsLine = token.endsLine := rfl

theorem forall_of_unplaced {P : Token → Prop} {tokens others : List Token}
    (kept : ∀ t, P t.unplaced ↔ P t)
    (same : tokens.map unplaced = others.map unplaced) (all : ∀ t ∈ others, P t) :
    ∀ t ∈ tokens, P t := by
  intro t member
  have mapped : t.unplaced ∈ others.map unplaced := same ▸ List.mem_map_of_mem member
  obtain ⟨other, within, same⟩ := List.mem_map.mp mapped
  rw [← kept, ← same, kept]
  exact all other within

end Token

def LineToken.unplaced (t : LineToken) : LineToken := ⟨t.token.unplaced, t.role⟩

theorem LineToken.unplaced_of (role : Role) (token : Token) :
    (LineToken.of role token).unplaced = .of role token.unplaced := rfl

namespace LineClassifier

def unplaced (state : LineClassifier) : LineClassifier :=
  ⟨state.pending.map Token.unplaced, state.atLineStart⟩

theorem lineRoles?_unplaced (tokens : List Token) :
    lineRoles? (tokens.map Token.unplaced) = lineRoles? tokens := by
  obtain _ | ⟨first, _ | ⟨second, _ | ⟨third, _ | ⟨fourth, rest⟩⟩⟩⟩ := tokens
  all_goals rfl

theorem group?_unplaced (atLineStart : Bool) (tokens : List Token) :
    group? atLineStart (tokens.map Token.unplaced) =
      (group? atLineStart tokens).map fun found => (found.1.map LineToken.unplaced, found.2) := by
  cases atLineStart with
  | false => rfl
  | true =>
      simp only [group?, if_true, lineRoles?_unplaced, Option.map_map]
      congr 1
      funext found
      simp only [Function.comp_apply, List.zipWith_map_right, List.map_zipWith]
      rfl

theorem drain_unplaced (atLineStart : Bool) (tokens : List Token) :
    drain atLineStart (tokens.map Token.unplaced) =
      (drain atLineStart tokens).map (List.map LineToken.unplaced) := by
  fun_induction drain atLineStart tokens with
  | case1 => simp [drain]
  | case2 => simp [drain, single, LineToken.unplaced_of]
  | case3 atLineStart first second rest group next decided ih =>
      have same := group?_unplaced atLineStart (first :: second :: rest)
      rw [decided, Option.map_some] at same
      rw [drain_group same, List.length_map, ← List.map_drop, ih, List.map_cons]
  | case4 atLineStart first second rest undecided ih =>
      have same := group?_unplaced atLineStart (first :: second :: rest)
      rw [undecided, Option.map_none] at same
      rw [List.map_cons, drain_single same, Token.unplaced_endsLine, ih, List.map_cons]
      rfl

theorem push_unplaced (state : LineClassifier) (token : Token) :
    state.unplaced.push token.unplaced =
      ((state.push token).1.map (List.map LineToken.unplaced), (state.push token).2.unplaced) := by
  have arrived : state.unplaced.pending ++ [token.unplaced] =
      (state.pending ++ [token]).map Token.unplaced := by simp [unplaced]
  have start : state.unplaced.atLineStart = state.atLineStart := rfl
  unfold push
  dsimp only
  rw [arrived, start, Token.unplaced_isEof, drain_unplaced, group?_unplaced]
  cases ends : token.isEof with
  | true => rfl
  | false =>
      simp only [Bool.false_eq_true, if_false]
      cases decided : group? state.atLineStart (state.pending ++ [token]) with
      | some found => simp [unplaced]
      | none =>
          cases filled : state.pending ++ [token] with
          | nil => rfl
          | cons first rest =>
              simp only [Option.map_none, List.map_cons, List.length_cons, List.length_map]
              split <;> rfl

theorem endsOnce_of_unplaced {tokens body : List Token}
    (same : tokens.map Token.unplaced = body.map Token.unplaced ++ [⟨.eof, .unknown, ""⟩])
    (inside : ∀ t ∈ body, t.isEof = false) : Token.EndsOnce tokens := by
  obtain ⟨front, last, rfl, before, ending⟩ := List.map_eq_append_iff.mp same
  obtain ⟨token, rest, rfl, isEof, empty⟩ := List.map_eq_cons_iff.mp ending
  rw [List.map_eq_nil_iff] at empty
  subst empty
  have eof : token.isEof = true := by
    rw [← Token.unplaced_isEof, isEof]
    rfl
  exact ⟨front, token, rfl, eof, Token.forall_of_unplaced (fun _ => Iff.rfl) before inside⟩

theorem groupsOf_unplaced (tokens : List Token) :
    groupsOf (tokens.map Token.unplaced) =
      (groupsOf tokens).map (List.map LineToken.unplaced) := by
  have all (state : LineClassifier) :
      (state.unplaced.pushAll (tokens.map Token.unplaced)).1 =
        (state.pushAll tokens).1.map (List.map LineToken.unplaced) := by
    induction tokens generalizing state with
    | nil => rfl
    | cons token tokens ih =>
        simp only [List.map_cons, pushAll, push_unplaced, List.map_append]
        rw [ih]
  exact all start

end LineClassifier

namespace GivenBlock

def unplaced (block : GivenBlock) : GivenBlock := ⟨block.name, block.tokens.map Token.unplaced⟩

end GivenBlock

theorem GivenBlocks.find?_unplaced (given : GivenBlocks) (name : String) :
    GivenBlocks.find? (given.map (List.map GivenBlock.unplaced)) name =
      (given.find? name).map (List.map Token.unplaced) := by
  unfold find?
  rw [← List.map_flatten, List.find?_map, Option.map_map, Option.map_map]
  rfl

namespace BlockReplacement

def unplaced (s : BlockReplacement) : BlockReplacement :=
  { s with blocks := s.blocks.map (List.map GivenBlock.unplaced) }

theorem replace_unplaced (s : BlockReplacement) (token : Token) :
    s.unplaced.replace token.unplaced =
      ((s.replace token).1.map Token.unplaced, (s.replace token).2.unplaced) := by
  obtain ⟨blocks, depth, replacing⟩ := s
  unfold replace
  rw [Token.unplaced_kind]
  split
  · next name tag =>
      obtain _ | ⟨block, opened⟩ := replacing
      · rfl
      · by_cases ends : opened = depth ∧ block = name <;> simp [unplaced, ends]
  · next kind name _ _ =>
      split
      · cases replacing with
        | some held => rfl
        | none =>
            by_cases block : kind = .openBlock
            · cases given : blocks.find? name <;>
                simp [unplaced, block, given, GivenBlocks.find?_unplaced]
            · simp [unplaced, block]
      · cases replacing <;> rfl
  · rfl
  · cases replacing <;> rfl

theorem replaceAll_unplaced (s : BlockReplacement) (tokens : List Token) :
    s.unplaced.replaceAll (tokens.map Token.unplaced) =
      (s.replaceAll tokens).map Token.unplaced := by
  induction tokens generalizing s with
  | nil => rfl
  | cons token tokens ih =>
      simp only [List.map_cons, replaceAll, replace_unplaced, ih, List.map_append]

end BlockReplacement

namespace ParentCall

def unplaced (call : ParentCall) : ParentCall :=
  { call with position := .unknown, blocks := call.blocks.map GivenBlock.unplaced }

theorem keep_unplaced (call : ParentCall) (token : Token) :
    call.unplaced.keep token.unplaced = (call.keep token).unplaced := by
  obtain ⟨parent, position, openNames, _ | _, _ | ⟨block, earlier⟩⟩ := call
  all_goals simp [keep, unplaced, GivenBlock.unplaced]

theorem openTag_unplaced (call : ParentCall) (kind : TagKind) (name : String) (token : Token) :
    call.unplaced.openTag kind name token.unplaced =
      (call.openTag kind name token).map unplaced := by
  have kept := keep_unplaced { call with openNames := name :: call.openNames } token
  have named : call.unplaced.blocks.any (·.name = name) = call.blocks.any (·.name = name) := by
    rw [unplaced, List.any_map]
    rfl
  have expected : call.unplaced.openNames = call.openNames := rfl
  unfold openTag
  rw [named, expected]
  by_cases block : kind = .openBlock ∧ call.openNames.length = 1
  · rw [if_pos block, if_pos block]
    cases call.blocks.any (·.name = name) <;> rfl
  · rw [if_neg block, if_neg block]
    exact congrArg Except.ok kept

theorem closeTag_unplaced (call : ParentCall) (name : String) (token : Token) :
    call.unplaced.closeTag name token.unplaced =
      (call.closeTag name token).map fun (next, closed) => (next.unplaced, closed) := by
  have kept := keep_unplaced { call with openNames := call.openNames.tail } token
  obtain ⟨parent, position, openNames, inBlock, blocks⟩ := call
  unfold closeTag
  dsimp only [unplaced] at kept ⊢
  by_cases named : openNames.headD "" = name
  · rw [if_neg (not_not_intro named), if_neg (not_not_intro named)]
    rcases openNames.tail.length with _ | _ | _
    · rfl
    · cases inBlock with
      | true => rfl
      | false => exact congrArg (fun next => Except.ok (next, false)) kept
    · exact congrArg (fun next => Except.ok (next, false)) kept
  · rw [if_pos named, if_pos named]
    rfl

theorem push_unplaced (call : ParentCall) (token : Token) :
    call.unplaced.push token.unplaced =
      (call.push token).map fun (next, closed) => (next.unplaced, closed) := by
  have kept : (.ok (call.unplaced.keep token.unplaced, false) : Except NestingError _) =
      (.ok (call.keep token, false) : Except NestingError _).map
        fun (next, closed) => (next.unplaced, closed) := by
    rw [keep_unplaced]
    rfl
  unfold push
  rw [Token.unplaced_kind]
  cases token.kind with
  | tag kind name =>
      have opened : (call.unplaced.openTag kind name token.unplaced).map (·, false) =
          ((call.openTag kind name token).map (·, false)).map
            fun (next, closed) => (next.unplaced, closed) := by
        rw [openTag_unplaced]
        cases call.openTag kind name token <;> rfl
      cases kind with
      | close => exact closeTag_unplaced call name token
      | openSection | openInverted | openParent | openBlock => exact opened
      | escaped | unescaped | inclusion => exact kept
  | eof => rfl
  | _ => exact kept

end ParentCall

end Stencil
