import Stencil.Proofs.Template.WellNested
import Stencil.Proofs.Token.Lines
import Stencil.Template.Replacement

/-!
Replacing the blocks of a parent, token by token. Main statement: of well nested tokens, those
inside the outermost blocks that tokens are given for give way to these, and all others stay.
-/

namespace Stencil

/-- That tokens are given for a block. Of several blocks of its name the first one counts, with the
innermost call first. -/
def GivenBlocks.Provides (given : GivenBlocks) (name : String) (tokens : List Token) : Prop :=
  ∃ before block after, given.flatten = before ++ block :: after ∧ block.name = name ∧
    block.tokens = tokens ∧ ∀ other ∈ before, other.name ≠ name

/-- Well nested tokens, and the same with what is given for blocks in place of what these have
inside. Nothing is replaced in what has been replaced. -/
inductive GivenBlocks.Fills (given : GivenBlocks) : List Token → List Token → Prop where
  | nil : Fills given [] []
  | other {token : Token} {rest filled : List Token} : token.opened? = none →
      token.closed? = none → Fills given rest filled → Fills given (token :: rest) (token :: filled)
  | replaced {opening closing : Token} {name : String} {inside content rest filled : List Token} :
      opening.opened? = some name → opening.opensBlock = true → given.Provides name content →
      closing.closed? = some name → Token.WellNested inside → Fills given rest filled →
      Fills given (opening :: (inside ++ closing :: rest))
        (opening :: (content ++ closing :: filled))
  | kept {opening closing : Token} {name : String} {inside content rest filled : List Token} :
      opening.opened? = some name →
      (opening.opensBlock = true → ∀ tokens, ¬ given.Provides name tokens) →
      closing.closed? = some name → Fills given inside content → Fills given rest filled →
      Fills given (opening :: (inside ++ closing :: rest))
        (opening :: (content ++ closing :: filled))

variable {given : GivenBlocks} {token opening closing : Token} {name : String} {depth : Nat}
  {tokens filled inside content : List Token}

namespace GivenBlocks

theorem provides_iff : given.Provides name tokens ↔ given.find? name = some tokens := by
  rw [Provides, find?, Option.map_eq_some_iff]
  simp only [List.find?_eq_some_iff_append]
  constructor
  · rintro ⟨before, block, after, whole, named, same, others⟩
    exact ⟨block, ⟨by simpa using named, before, after, whole, by simpa using others⟩, same⟩
  · rintro ⟨block, ⟨named, before, after, whole, others⟩, same⟩
    exact ⟨before, block, after, whole, by simpa using named, same, by simpa using others⟩

theorem find?_eq_none (absent : ∀ tokens, ¬ given.Provides name tokens) :
    given.find? name = none := by
  rw [Option.eq_none_iff_forall_ne_some]
  intro tokens found
  exact absent tokens (provides_iff.mpr found)

theorem exists_fills (given : GivenBlocks) (nested : Token.WellNested tokens) :
    ∃ filled, given.Fills tokens filled := by
  induction nested with
  | nil => exact ⟨[], .nil⟩
  | other noOpening noEnd _ ih =>
      obtain ⟨filled, fills⟩ := ih
      exact ⟨_, .other noOpening noEnd fills⟩
  | @enclose opening closing name _ _ opened closes nested _ ihInside ihRest =>
      obtain ⟨content, within⟩ := ihInside
      obtain ⟨filled, fills⟩ := ihRest
      by_cases replaced : opening.opensBlock = true ∧ ∃ tokens, given.Provides name tokens
      · obtain ⟨isBlock, tokens, provides⟩ := replaced
        exact ⟨_, .replaced opened isBlock provides closes nested fills⟩
      · exact ⟨_, .kept opened (fun isBlock tokens provides => replaced ⟨isBlock, tokens, provides⟩)
          closes within fills⟩

theorem Fills.wellNested (fills : given.Fills tokens filled)
    (nested : ∀ block ∈ given.flatten, Token.WellNested block.tokens) :
    Token.WellNested filled := by
  induction fills with
  | nil => exact .nil
  | other noOpening noEnd _ ih => exact .other noOpening noEnd ih
  | replaced opened _ provides closes _ _ ih =>
      obtain ⟨before, block, after, whole, -, rfl, -⟩ := provides
      exact .enclose opened closes (nested block (by simp [whole])) ih
  | kept opened _ closes _ _ ihInside ihRest => exact .enclose opened closes ihInside ihRest

end GivenBlocks

namespace BlockReplacement

/-! What is made of each kind of token, inside a block that is being replaced and outside. -/

theorem replace_other (noOpening : token.opened? = none) (noEnd : token.closed? = none)
    (within : token.isEof = false) (s : BlockReplacement) :
    s.replace token = (if s.replacing.isSome then [] else [token], s) := by
  obtain ⟨kind, position, raw⟩ := token
  obtain ⟨blocks, depth, _ | held⟩ := s
  all_goals
    cases kind with
    | tag kind name => cases kind <;> first | rfl | cases noOpening; done | cases noEnd
    | eof => cases within
    | _ => rfl

theorem replace_opened (opened : token.opened? = some name) :
    replace ⟨given, depth, none⟩ token =
      match (if token.opensBlock = true then given.find? name else none) with
      | some tokens => (token :: tokens, ⟨given, depth + 1, some (name, depth + 1)⟩)
      | none => ([token], ⟨given, depth + 1, none⟩) := by
  obtain ⟨kind, position, raw⟩ := token
  cases kind with
  | tag kind name => cases kind <;> first | cases opened; done | (cases opened; rfl)
  | _ => cases opened

theorem replace_opened_inside {held : String × Nat} (opened : token.opened? = some name) :
    replace ⟨given, depth, some held⟩ token = ([], ⟨given, depth + 1, some held⟩) := by
  obtain ⟨kind, position, raw⟩ := token
  cases kind with
  | tag kind name => cases kind <;> first | cases opened; done | rfl
  | _ => cases opened

theorem replace_closed (closes : token.closed? = some name) :
    replace ⟨given, depth + 1, none⟩ token = ([token], ⟨given, depth, none⟩) := by
  rw [replace, Token.closed?_eq_some_iff.mp closes]
  rfl

theorem replace_closed_block (closes : token.closed? = some name) :
    replace ⟨given, depth + 1, some (name, depth + 1)⟩ token = ([token], ⟨given, depth, none⟩) := by
  simp [replace, Token.closed?_eq_some_iff.mp closes]

theorem replace_closed_inside {block : String} {opened : Nat} (closes : token.closed? = some name)
    (deep : opened ≤ depth) :
    replace ⟨given, depth + 1, some (block, opened)⟩ token =
      ([], ⟨given, depth, some (block, opened)⟩) := by
  have different : opened ≠ depth + 1 := by omega
  simp [replace, Token.closed?_eq_some_iff.mp closes, different]

theorem replaceAll_inside (nested : Token.WellNested inside)
    (within : ∀ token ∈ inside, token.isEof = false) {block : String} {opened : Nat}
    (deep : opened ≤ depth) (rest : List Token) :
    replaceAll ⟨given, depth, some (block, opened)⟩ (inside ++ rest) =
      replaceAll ⟨given, depth, some (block, opened)⟩ rest := by
  induction nested generalizing depth rest with
  | nil => rfl
  | other noOpening noEnd _ ih =>
      obtain ⟨here, further⟩ := List.forall_mem_cons.mp within
      rw [List.cons_append, replaceAll, replace_other noOpening noEnd here]
      exact ih further deep rest
  | enclose opens closes _ _ ihInside ihRest =>
      obtain ⟨-, within⟩ := List.forall_mem_cons.mp within
      obtain ⟨inner, outer⟩ := List.forall_mem_append.mp within
      have deeper : opened ≤ depth + 1 := by omega
      simp only [List.cons_append, List.append_assoc, replaceAll, replace_opened_inside opens,
        List.nil_append, ihInside inner deeper, replace_closed_inside closes deep]
      exact ihRest (List.forall_mem_cons.mp outer).2 deep rest

/-- Well nested tokens are filled, whatever follows behind them. -/
theorem replaceAll_fills (fills : given.Fills tokens filled)
    (within : ∀ token ∈ tokens, token.isEof = false) (depth : Nat) (rest : List Token) :
    replaceAll ⟨given, depth, none⟩ (tokens ++ rest) =
      filled ++ replaceAll ⟨given, depth, none⟩ rest := by
  induction fills generalizing depth rest with
  | nil => rfl
  | other noOpening noEnd _ ih =>
      obtain ⟨here, further⟩ := List.forall_mem_cons.mp within
      rw [List.cons_append, replaceAll, replace_other noOpening noEnd here, List.cons_append,
        ← ih further]
      rfl
  | replaced opened isBlock provides closes nested _ ih =>
      obtain ⟨-, within⟩ := List.forall_mem_cons.mp within
      obtain ⟨inner, outer⟩ := List.forall_mem_append.mp within
      have found := GivenBlocks.provides_iff.mp provides
      simp only [List.cons_append, List.append_assoc, replaceAll, replace_opened opened, isBlock,
        if_true, found, replaceAll_inside nested inner (Nat.le_refl _), replace_closed_block closes,
        ih (List.forall_mem_cons.mp outer).2, List.nil_append]
  | @kept opening closing name _ _ _ _ opened own closes _ _ ihInside ihRest =>
      obtain ⟨-, within⟩ := List.forall_mem_cons.mp within
      obtain ⟨inner, outer⟩ := List.forall_mem_append.mp within
      have none : (if opening.opensBlock = true then given.find? name else .none) = .none := by
        split
        · next isBlock => exact GivenBlocks.find?_eq_none (own isBlock)
        · rfl
      simp only [List.cons_append, List.append_assoc, replaceAll, replace_opened opened, none,
        ihInside inner, replace_closed closes, ihRest (List.forall_mem_cons.mp outer).2,
        List.nil_append]

/-- The tokens of a template that are well nested come out with the first tokens given for each of
their outermost blocks, the innermost call first, in place of what the block has inside. All others,
the tags of these blocks among them, stay as they are. -/
theorem replaceAll_wellNested (given : GivenBlocks) {body : List Token} {ending : Token}
    (nested : Token.WellNested body) (within : ∀ token ∈ body, token.isEof = false)
    (ends : ending.isEof = true) :
    ∃ filled, (∀ other, given.Fills body other ↔ other = filled) ∧
      (start given).replaceAll (body ++ [ending]) = filled ++ [ending] ∧
      ((∀ block ∈ given.flatten, Token.WellNested block.tokens) →
        Token.WellNested (filled ++ [ending])) := by
  obtain ⟨filled, fills⟩ := given.exists_fills nested
  have unique (other : List Token) (fills' : given.Fills body other) : other = filled := by
    have same :=
      (replaceAll_fills fills' within 0 []).symm.trans (replaceAll_fills fills within 0 [])
    exact List.append_cancel_right same
  have last : replaceAll ⟨given, 0, none⟩ [ending] = [ending] := by
    simp only [replaceAll, replace, Token.isEof_iff.mp ends, List.append_nil]
  refine ⟨filled, fun other => ⟨unique other, fun same => same ▸ fills⟩, ?_, ?_⟩
  · rw [start, replaceAll_fills fills within, last]
  · intro each
    refine (fills.wellNested each).append (.one ?_ ?_)
    · simp [Token.opened?, Token.isEof_iff.mp ends]
    · simp [Token.closed?, Token.isEof_iff.mp ends]

/-- A block with another of the same name inside, in a section of the name of a third, which only
the outer call gives. What is given has a block of its own name inside. -/
theorem replaceAll_wellNested_same_name :
    let openA : Token := ⟨.tag .openBlock "a", .unknown, "{{$a}}"⟩
    let closeA : Token := ⟨.tag .close "a", .unknown, "{{/a}}"⟩
    let openB : Token := ⟨.tag .openBlock "b", .unknown, "{{$b}}"⟩
    let closeB : Token := ⟨.tag .close "b", .unknown, "{{/b}}"⟩
    let opening : Token := ⟨.tag .openSection "b", .unknown, "{{#b}}"⟩
    let text : Token := ⟨.text "x", .unknown, "x"⟩
    let ending : Token := ⟨.eof, .unknown, ""⟩
    let given : GivenBlocks := [[⟨"c", []⟩], [⟨"a", [openA, closeA]⟩, ⟨"a", [text]⟩]]
    let body := [opening, openA, openA, text, closeA, closeA, openB, text, closeB, closeB]
    let filled := [opening, openA, openA, closeA, closeA, openB, text, closeB, closeB]
    given.Fills body filled ∧ (start given).replaceAll (body ++ [ending]) = filled ++ [ending] ∧
      Token.WellNested (filled ++ [ending]) := by
  intro openA closeA openB closeB opening text ending given body filled
  have nested : Token.WellNested body := by
    have one : Token.WellNested (openA :: ([text] ++ closeA :: [])) :=
      .enclose rfl rfl (.one rfl rfl) .nil
    have other : Token.WellNested (openB :: ([text] ++ closeB :: [])) :=
      .enclose rfl rfl (.one rfl rfl) .nil
    have two : Token.WellNested (openA :: ([openA, text, closeA] ++ closeA ::
        [openB, text, closeB])) := .enclose rfl rfl one other
    exact show Token.WellNested (opening :: ([openA, openA, text, closeA, closeA, openB, text,
      closeB] ++ closeB :: [])) from .enclose rfl rfl two .nil
  obtain ⟨other, unique, same, kept⟩ :=
    replaceAll_wellNested given nested (by decide) (show ending.isEof = true from rfl)
  have computed : (start given).replaceAll (body ++ [ending]) = filled ++ [ending] := by decide
  obtain rfl : filled = other := List.append_cancel_right (computed.symm.trans same)
  have outer : Token.WellNested (openA :: ([] ++ closeA :: [])) := .enclose rfl rfl .nil .nil
  have each : ∀ block ∈ given.flatten, Token.WellNested block.tokens :=
    List.forall_mem_cons.mpr ⟨.nil, List.forall_mem_cons.mpr ⟨outer,
      List.forall_mem_singleton.mpr (.one rfl rfl)⟩⟩
  exact ⟨(unique _).mpr rfl, same, kept each⟩

end BlockReplacement

end Stencil
