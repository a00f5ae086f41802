import Stencil.Proofs.Token.OwnLine

/-!
How deep tokens are nested, by opening tags and end tags of any names. Main statement: behind an
opening tag there is a first end tag at the depth of the tag, or the end of the template comes
first.
-/

namespace Stencil

namespace Token

/-- How many constructs are open behind a token if so many are open in front of it. Within a
construct there is neither its own end tag nor the end of a template. -/
def depthAfter? (depth : Nat) (token : Token) : Option Nat :=
  match token.kind with
  | .tag .close _ => if depth = 0 then none else some (depth - 1)
  | .tag kind _ => some (if kind.isOpening then depth + 1 else depth)
  | .eof => none
  | _ => some depth

def IsBalanced (tokens : List Token) : Prop := tokens.foldlM depthAfter? 0 = some 0

instance (tokens : List Token) : Decidable (IsBalanced tokens) :=
  inferInstanceAs (Decidable (_ = _))

variable {token : Token} {tokens : List Token} {depth last : Nat}

theorem depthAfter?_of_isWhitespace (space : token.isWhitespace = true) (depth : Nat) :
    token.depthAfter? depth = some depth := by
  obtain ⟨kind, position, raw⟩ := token
  cases kind <;> first | rfl | cases space

theorem depthAfter?_of_spaces {space : Option Token}
    (isSpace : ∀ token ∈ space, token.isWhitespace = true) (depth : Nat) :
    space.toList.foldlM depthAfter? depth = some depth := by
  cases space with
  | none => rfl
  | some token =>
      rw [Option.toList_some, List.foldlM_cons, depthAfter?_of_isWhitespace (isSpace token rfl)]
      rfl

theorem depthAfter?_of_close {name : String} (closes : token.kind = .tag .close name) :
    token.depthAfter? 0 = none := by
  rw [depthAfter?, closes]
  rfl

theorem depthAfter?_of_isEof (isEof : token.isEof = true) (depth : Nat) :
    token.depthAfter? depth = none := by
  rw [depthAfter?, isEof_iff.mp isEof]

theorem isEof_of_foldlM (next : tokens.foldlM depthAfter? depth = some last) :
    ∀ token ∈ tokens, token.isEof = false := by
  induction tokens generalizing depth with
  | nil => simp
  | cons first tokens ih =>
      rw [List.foldlM_cons] at next
      obtain ⟨middle, here, next⟩ := Option.bind_eq_some_iff.mp next
      refine List.forall_mem_cons.mpr ⟨?_, ih next⟩
      by_contra isEof
      rw [depthAfter?_of_isEof (eq_true_of_ne_false isEof)] at here
      cases here

theorem depthAfter?_of_isNewline (newline : token.isNewline = true) (depth : Nat) :
    token.depthAfter? depth = some depth := by
  obtain ⟨ending, kind⟩ := isNewline_iff.mp newline
  rw [depthAfter?, kind]

theorem EndsOnce.tail (ends : EndsOnce (token :: tokens)) (inside : token.isEof = false) :
    EndsOnce tokens := by
  obtain ⟨_ | ⟨first, body⟩, ending, same, isEof, within⟩ := ends
  · obtain ⟨rfl, -⟩ := List.cons.inj same
    cases inside.symm.trans isEof
  · obtain ⟨-, rfl⟩ := List.cons.inj same
    exact ⟨body, ending, rfl, isEof, (List.forall_mem_cons.mp within).2⟩

theorem EndsOnce.exists_end (ends : EndsOnce tokens) (depth : Nat) :
    (∃ inner closing behind name, tokens = inner ++ closing :: behind ∧
      closing.kind = .tag .close name ∧ inner.foldlM depthAfter? depth = some 0) ∨
    ∃ inner ending last, tokens = inner ++ [ending] ∧ ending.isEof = true ∧
      inner.foldlM depthAfter? depth = some last := by
  obtain ⟨body, ending, rfl, isEof, inside⟩ := ends
  induction body generalizing depth with
  | nil => exact .inr ⟨[], ending, depth, rfl, isEof, rfl⟩
  | cons first body ih =>
      obtain ⟨here, further⟩ := List.forall_mem_cons.mp inside
      cases next : first.depthAfter? depth with
      | none =>
          obtain ⟨name, closes, rfl⟩ : ∃ name, first.kind = .tag .close name ∧ depth = 0 := by
            obtain ⟨kind, position, raw⟩ := first
            cases kind with
            | tag kind name =>
                cases kind with
                | close =>
                    refine ⟨name, rfl, ?_⟩
                    by_contra filled
                    cases (if_neg filled).symm.trans next
                | _ => cases next
            | eof => cases here
            | _ => cases next
          exact .inl ⟨[], first, body ++ [ending], name, rfl, closes, rfl⟩
      | some middle =>
          obtain ⟨inner, closing, behind, name, split, closes, within⟩ |
            ⟨inner, final, last, split, isFinal, within⟩ := ih middle further
          · refine .inl ⟨first :: inner, closing, behind, name, ?_, closes, ?_⟩
            · rw [List.cons_append, split, List.cons_append]
            · rw [List.foldlM_cons, next]
              exact within
          · refine .inr ⟨first :: inner, final, last, ?_, isFinal, ?_⟩
            · rw [List.cons_append, split, List.cons_append]
            · rw [List.foldlM_cons, next]
              exact within

end Token

end Stencil
