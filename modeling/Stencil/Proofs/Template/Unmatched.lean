import Stencil.Proofs.Compile.LambdaBlocks
import Stencil.Proofs.Compile.LambdaOpacity

/-!
Opening tags without an end tag. Main statement: a tag that stays open behind the blocks of a parent
have been replaced is one of the parent's own, and no end tag of the parent matches it.
-/

namespace Stencil

namespace Token

def around (opens : List Token) (token : Token) : List Token :=
  if token.opened?.isSome then token :: opens
  else if token.closed?.isSome then opens.tail
  else opens

def stillOpen (tokens : List Token) : List Token := tokens.foldl around []

/-- That none of some tokens is the end tag for a name: it would stand behind well nested ones. -/
def Unmatched (name : String) (tokens : List Token) : Prop :=
  ∀ inner closing after, tokens = inner ++ closing :: after → WellNested inner →
    closing.closed? ≠ some name

variable {token opening closing : Token} {tokens front rest : List Token} {name : String}
  {depth last : Nat}

theorem around_opened (opened : token.opened? = some name) (opens : List Token) :
    around opens token = token :: opens := by
  simp [around, opened]

theorem around_closed (closes : token.closed? = some name) (opens : List Token) :
    around opens token = opens.tail := by
  have noOpening : token.opened? = none := by
    rw [closed?_eq_some_iff] at closes
    simp [opened?, closes, TagKind.isOpening]
  simp [around, noOpening, closes]

theorem around_other (noOpening : token.opened? = none) (noEnd : token.closed? = none)
    (opens : List Token) : around opens token = opens := by
  simp [around, noOpening, noEnd]

theorem stillOpen_concat (tokens : List Token) (token : Token) :
    stillOpen (tokens ++ [token]) = around (stillOpen tokens) token := List.foldl_append ..

theorem unmatched_of_depth (within : tokens.foldlM depthAfter? 0 = some depth) :
    Unmatched name tokens := by
  rintro inner closing after rfl nested closes
  have inside := isEof_of_foldlM within
  obtain ⟨first, -⟩ := List.forall_mem_append.mp inside
  have shut : closing.depthAfter? 0 = none := depthAfter?_of_close (closed?_eq_some_iff.mp closes)
  rw [List.foldlM_append, nested.depthAfter? first, Option.bind_eq_bind, Option.bind_some,
    List.foldlM_cons, shut] at within
  cases within

theorem WellNested.exists_end (nested : WellNested (front ++ opening :: rest))
    (opened : opening.opened? = some name) :
    ∃ inner closing after, rest = inner ++ closing :: after ∧ WellNested inner ∧
      closing.closed? = some name := by
  generalize same : front ++ opening :: rest = tokens at nested
  induction nested generalizing front rest with
  | nil => simp at same
  | @other token tokens noOpening _ _ ih =>
      cases front with
      | nil =>
          obtain ⟨rfl, -⟩ := List.cons.inj same
          cases opened.symm.trans noOpening
      | cons first front => exact ih (List.cons.inj same).2
  | @enclose first closing found inside tokens opens closes nested _ ihInside ihRest =>
      cases front with
      | nil =>
          obtain ⟨rfl, rfl⟩ := List.cons.inj same
          cases opens.symm.trans opened
          exact ⟨inside, closing, tokens, rfl, nested, closes⟩
      | cons first front =>
          obtain ⟨-, same⟩ := List.cons.inj same
          obtain ⟨behind, rfl, later⟩ | ⟨behind, rfl, rfl⟩ := append_eq_append_cons same.symm
          · cases behind with
            | nil =>
                obtain ⟨rfl, -⟩ := List.cons.inj later
                cases (closed?_of_opened? opened).symm.trans closes
            | cons last behind => exact ihRest (List.cons.inj later).2.symm
          · obtain ⟨inner, ending, after, rfl, within, ends⟩ := ihInside rfl
            exact ⟨inner, ending, after ++ closing :: tokens, by simp, within, ends⟩

end Token

def GivenBlocks.AreNested (given : GivenBlocks) : Prop :=
  ∀ block ∈ given.flatten, Token.WellNested block.tokens

theorem GivenBlocks.AreNested.of_find {given : GivenBlocks} (nested : given.AreNested)
    {name : String} {content : List Token} (found : given.find? name = some content) :
    Token.WellNested content := by
  obtain ⟨_, block, _, whole, -, rfl, -⟩ := GivenBlocks.provides_iff.mpr found
  apply nested block
  rw [whole]
  exact List.mem_append_right _ (List.mem_cons_self ..)

namespace BlockReplacement

open Token

variable {s : BlockReplacement} {given : GivenBlocks} {tokens front rest : List Token}
  {tag : Token} {name : String} {depth : Nat}

theorem exists_of_replaceAll (whole : s.replaceAll tokens = front ++ tag :: rest) :
    ∃ before token behind first last, tokens = before ++ token :: behind ∧
      ((s.after before).replace token).1 = first ++ tag :: last ∧
      rest = last ++ ((s.after before).replace token).2.replaceAll behind := by
  induction tokens generalizing s front with
  | nil => simp [replaceAll] at whole
  | cons token tokens ih =>
      rw [replaceAll_cons] at whole
      obtain ⟨behind, rfl, later⟩ | ⟨behind, here, same⟩ := append_eq_append_cons whole
      · obtain ⟨before, found, after, first, last, rfl, made, same⟩ := ih later
        exact ⟨token :: before, found, after, first, last, rfl, made, same⟩
      · exact ⟨[], token, tokens, front, behind, rfl, here, same⟩

theorem exists_of_matched_kept {inner after : List Token} {closing : Token}
    (nested : given.AreNested) (within : WellNested inner)
    (inside : ∀ token ∈ inner, token.isEof = false) (closes : closing.closed? = some name) :
    ∃ filled more, WellNested filled ∧
      replaceAll ⟨given, depth + 1, none⟩ (inner ++ closing :: after) =
        filled ++ closing :: more := by
  obtain ⟨filled, fills⟩ := given.exists_fills within
  refine ⟨filled, replaceAll ⟨given, depth, none⟩ after, fills.wellNested nested, ?_⟩
  rw [replaceAll_fills fills inside, replaceAll_cons, replace_closed closes]
  rfl

theorem replaceAll_matched_block {inner : List Token} {closing : Token} (within : WellNested inner)
    (inside : ∀ token ∈ inner, token.isEof = false) (closes : closing.closed? = some name)
    (after : List Token) :
    replaceAll ⟨given, depth + 1, some (name, depth + 1)⟩ (inner ++ closing :: after) =
      closing :: replaceAll ⟨given, depth, none⟩ after := by
  rw [replaceAll_inside within inside (Nat.le_refl _), replaceAll_cons, replace_closed_block closes]
  rfl

theorem not_unmatched_within {content last behind : List Token} (nested : WellNested content)
    (whole : content = front ++ tag :: last) (opened : tag.opened? = some name) :
    ¬ Unmatched name (last ++ behind) := by
  subst whole
  intro unmatched
  obtain ⟨inner, closing, after, rfl, within, closes⟩ := nested.exists_end opened
  exact unmatched inner closing (after ++ behind) (by simp) within closes

theorem eq_of_unmatched {token : Token} {first last behind : List Token}
    (nested : s.blocks.AreNested)
    (made : (s.replace token).1 = first ++ tag :: last) (opened : tag.opened? = some name)
    (unmatched : Unmatched name (last ++ behind)) : token = tag ∧ first = [] := by
  have alone (same : [token] = first ++ tag :: last) : token = tag ∧ first = [] := by
    cases first with
    | nil => exact ⟨(List.cons.inj same).1, rfl⟩
    | cons head first => simp at same
  obtain ⟨gone, -⟩ | ⟨kept, -⟩ | ⟨block, content, -, found, filled, -⟩ := s.replace_cases token
  · simp [gone] at made
  · exact alone (kept.symm.trans made)
  · rw [filled] at made
    cases first with
    | nil => exact ⟨(List.cons.inj made).1, rfl⟩
    | cons head first =>
        exact absurd unmatched
          (not_unmatched_within (nested.of_find found) (List.cons.inj made).2 opened)

theorem exists_unmatched (nested : given.AreNested) (inside : ∀ token ∈ tokens, token.isEof = false)
    (whole : (start given).replaceAll tokens = front ++ tag :: rest)
    (opened : tag.opened? = some name) (unmatched : Unmatched name rest) :
    ∃ before behind, tokens = before ++ tag :: behind ∧ Unmatched name behind := by
  obtain ⟨before, token, behind, first, last, rfl, made, rfl⟩ := exists_of_replaceAll whole
  obtain ⟨-, further⟩ := List.forall_mem_append.mp inside
  obtain ⟨-, goesOn⟩ := List.forall_mem_cons.mp further
  have blocks : ((start given).after before).blocks = given := blocks_after ..
  obtain ⟨rfl, rfl⟩ := eq_of_unmatched (blocks.symm ▸ nested) made opened unmatched
  refine ⟨before, behind, rfl, ?_⟩
  rintro inner closing after rfl within closes
  obtain ⟨inside, -⟩ := List.forall_mem_append.mp goesOn
  generalize (start given).after before = s at blocks made unmatched
  obtain ⟨found, depth, replacing⟩ := s
  obtain rfl : found = given := blocks
  cases replacing with
  | some held => simp [replace_opened_inside opened] at made
  | none =>
      rw [replace_opened opened] at made unmatched
      split at made
      · next content provided =>
          obtain rfl : content = last := (List.cons.inj made).2
          split at provided
          · next isBlock =>
              simp only [isBlock, if_true, provided] at unmatched
              rw [replaceAll_matched_block within inside closes] at unmatched
              exact unmatched content closing _ rfl (nested.of_find provided) closes
          · cases provided
      · next kept =>
          obtain rfl : [] = last := (List.cons.inj made).2
          simp only [kept] at unmatched
          obtain ⟨filled, more, nestedFilled, same⟩ :
              ∃ filled more, WellNested filled ∧
                replaceAll ⟨found, depth + 1, none⟩ (inner ++ closing :: after) =
                  filled ++ closing :: more :=
            exists_of_matched_kept nested within inside closes
          exact unmatched filled closing more same nestedFilled closes

end BlockReplacement

end Stencil
