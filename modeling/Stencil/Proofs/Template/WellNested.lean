import Mathlib.Data.List.Induction
import Stencil.Compile.Error
import Stencil.Proofs.Results

/-!
Opening and end tags as brackets. Main statement: tokens are well nested, or there is a first tag
among them that keeps them from it, and reading the tokens from left to right with a stack tells
which.
-/

namespace Stencil

namespace Token

def opened? (token : Token) : Option String :=
  match token.kind with
  | .tag kind name => if kind.isOpening then some name else none
  | _ => none

def closed? (token : Token) : Option String :=
  match token.kind with
  | .tag .close name => some name
  | _ => none

def opensBlock (token : Token) : Bool :=
  match token.kind with
  | .tag .openBlock _ => true
  | _ => false

/-- A tag as error messages show it: its name behind the mark of its kind. -/
def mark (token : Token) : String :=
  match token.kind with
  | .tag kind name => kind.sigil ++ name
  | _ => ""

theorem closed?_of_opened? {token : Token} {name : String} (opens : token.opened? = some name) :
    token.closed? = none := by
  obtain ⟨kind, position, raw⟩ := token
  cases kind with
  | tag kind name => cases kind <;> first | rfl | cases opens
  | _ => rfl

theorem opened?_of_untagged {token : Token} (untagged : token.tag? = none) :
    token.opened? = none ∧ token.closed? = none := by
  obtain ⟨kind, position, raw⟩ := token
  cases kind <;> first | exact ⟨rfl, rfl⟩ | cases untagged

theorem closed?_eq_some_iff {token : Token} {name : String} :
    token.closed? = some name ↔ token.kind = .tag .close name := by
  obtain ⟨kind, position, raw⟩ := token
  cases kind with
  | tag kind other => cases kind <;> simp [closed?]
  | _ => simp [closed?]

inductive WellNested : List Token → Prop where
  | nil : WellNested []
  | other {token : Token} {rest : List Token} : token.opened? = none → token.closed? = none →
      WellNested rest → WellNested (token :: rest)
  | enclose {opening closing : Token} {name : String} {inside rest : List Token} :
      opening.opened? = some name → closing.closed? = some name → WellNested inside →
      WellNested rest → WellNested (opening :: (inside ++ closing :: rest))

/-- Tokens that are well nested but for some opening tags, outermost first, whose end tags are yet
to come. -/
inductive LeavesOpen : List Token → List Token → Prop where
  | none {tokens : List Token} : WellNested tokens → LeavesOpen tokens []
  | some {before inside opens : List Token} {opening : Token} {name : String} : WellNested before →
      opening.opened? = some name → LeavesOpen inside opens →
      LeavesOpen (before ++ opening :: inside) (opening :: opens)

end Token

/-- What keeps tokens from being well nested, where that shows, and the tags of the constructs that
are open there, outermost first. -/
structure NestingFault where
  error : NestingError
  position : Position
  opens : List Token
  deriving DecidableEq, Repr

namespace Token

/-- The first thing that keeps tokens from being well nested: an end tag where nothing is open, an
end tag of another name than the innermost open construct, or the end of the tokens where something
is. -/
inductive FirstFault (tokens : List Token) : NestingFault → Prop where
  | unexpected {before after : List Token} {closing : Token} {name : String} :
      tokens = before ++ closing :: after → closing.closed? = some name → LeavesOpen before [] →
      FirstFault tokens ⟨.unexpectedClose name, closing.position, []⟩
  | mismatched {before after outer : List Token} {closing innermost : Token}
      {name expected : String} : tokens = before ++ closing :: after →
      closing.closed? = some name → LeavesOpen before (outer ++ [innermost]) →
      innermost.opened? = some expected → expected ≠ name →
      FirstFault tokens
        ⟨.mismatchedClose expected name, closing.position, outer ++ [innermost]⟩
  | unclosed {outer : List Token} {innermost : Token} {name : String} :
      LeavesOpen tokens (outer ++ [innermost]) → innermost.opened? = some name →
      FirstFault tokens ⟨.unclosed name, innermost.position, outer ++ [innermost]⟩

def track (opens : List Token) (token : Token) : Except NestingFault (List Token) :=
  match token.closed? with
  | none => .ok (if token.opened?.isSome then token :: opens else opens)
  | some name =>
      match opens with
      | [] => .error ⟨.unexpectedClose name, token.position, []⟩
      | innermost :: outer =>
          if innermost.opened? = some name then .ok outer
          else
            .error ⟨.mismatchedClose (innermost.opened?.getD "") name, token.position,
              opens.reverse⟩

def checkNested (tokens : List Token) : Except NestingFault Unit := do
  match ← tokens.foldlM track [] with
  | [] => return ()
  | innermost :: outer =>
      throw ⟨.unclosed (innermost.opened?.getD ""), innermost.position,
        (innermost :: outer).reverse⟩

variable {token opening closing innermost : Token} {tokens before inside opens outer : List Token}
  {name : String} {fault : NestingFault}

theorem track_other (noOpening : token.opened? = none) (noEnd : token.closed? = none) :
    track opens token = .ok opens := by
  simp [track, noOpening, noEnd]

theorem track_opening (opened : token.opened? = some name) (outer : List Token) :
    track outer token = .ok (token :: outer) := by
  simp [track, opened, closed?_of_opened? opened]

theorem track_closing (closes : closing.closed? = some name) (opened : opening.opened? = some name)
    (outer : List Token) : track (opening :: outer) closing = .ok outer := by
  simp [track, closes, opened]

namespace WellNested

theorem append (first : WellNested before) (second : WellNested inside) :
    WellNested (before ++ inside) := by
  induction first with
  | nil => exact second
  | other noOpening noEnd _ ih => exact .other noOpening noEnd ih
  | enclose opened closes within _ _ ih =>
      rw [List.cons_append, List.append_assoc, List.cons_append]
      exact .enclose opened closes within ih

theorem one (noOpening : token.opened? = none) (noEnd : token.closed? = none) :
    WellNested [token] := .other noOpening noEnd .nil

theorem track (nested : WellNested tokens) (opens : List Token) :
    tokens.foldlM Token.track opens = .ok opens := by
  induction nested generalizing opens with
  | nil => rfl
  | other noOpening noEnd _ ih =>
      rw [List.foldlM_cons, track_other noOpening noEnd, ok_bind, ih]
  | enclose opened closes _ _ ihInside ihRest =>
      rw [List.foldlM_cons, track_opening opened, ok_bind, List.foldlM_append, ihInside, ok_bind,
        List.foldlM_cons, track_closing closes opened, ok_bind, ihRest]

end WellNested

namespace LeavesOpen

theorem track (leaves : LeavesOpen tokens opens) (outer : List Token) :
    tokens.foldlM Token.track outer = .ok (opens.reverse ++ outer) := by
  induction leaves generalizing outer with
  | none nested => exact nested.track outer
  | @some before inside opens opening name nested opened _ ih =>
      rw [List.foldlM_append, nested.track, ok_bind, List.foldlM_cons, track_opening opened,
        ok_bind, ih, List.reverse_cons, List.append_assoc, List.singleton_append]

theorem opened (leaves : LeavesOpen tokens opens) (member : token ∈ opens) :
    ∃ name, token.opened? = .some name := by
  induction leaves with
  | none _ => cases member
  | some _ opened _ ih =>
      rcases List.mem_cons.mp member with rfl | within
      · exact ⟨_, opened⟩
      · exact ih within

theorem append_nested (leaves : LeavesOpen tokens opens) (nested : WellNested inside) :
    LeavesOpen (tokens ++ inside) opens := by
  induction leaves with
  | none first => exact .none (first.append nested)
  | some first opened _ ih =>
      rw [List.append_assoc, List.cons_append]
      exact .some first opened ih

theorem append_opening (leaves : LeavesOpen tokens opens) (opened : token.opened? = .some name) :
    LeavesOpen (tokens ++ [token]) (opens ++ [token]) := by
  induction leaves with
  | none first => exact .some first opened (.none .nil)
  | some first outermost _ ih =>
      rw [List.append_assoc, List.cons_append]
      exact .some first outermost ih

theorem append_closing (leaves : LeavesOpen tokens (outer ++ [innermost]))
    (opened : innermost.opened? = .some name) (closes : token.closed? = .some name) :
    LeavesOpen (tokens ++ [token]) outer := by
  generalize same : outer ++ [innermost] = opens at leaves
  induction leaves generalizing outer with
  | none _ => simp at same
  | @some before inside opens opening _ first outermost within ih =>
      rw [List.append_assoc, List.cons_append]
      cases outer with
      | nil =>
          obtain ⟨rfl, rfl⟩ := List.cons.inj same
          cases within with
          | none nested => exact .none (first.append (.enclose opened closes nested .nil))
      | cons outermost' outer =>
          obtain ⟨rfl, further⟩ := List.cons.inj same
          exact .some first outermost (ih further)

theorem of_track (done : tokens.foldlM Token.track [] = .ok opens) :
    LeavesOpen tokens opens.reverse := by
  induction tokens using List.reverseRecOn generalizing opens with
  | nil =>
      cases done
      exact .none .nil
  | append_singleton before token ih =>
      rw [List.foldlM_append] at done
      obtain ⟨middle, first, last⟩ := bind_eq_ok.mp done
      have leaves := ih first
      rw [List.foldlM_cons] at last
      obtain ⟨_, last, same⟩ := bind_eq_ok.mp last
      cases same
      cases closes : token.closed? with
      | none =>
          cases opened : token.opened? with
          | none =>
              cases (track_other opened closes).symm.trans last
              exact leaves.append_nested (.one opened closes)
          | some name =>
              cases (track_opening opened middle).symm.trans last
              rw [List.reverse_cons]
              exact leaves.append_opening opened
      | some name =>
          simp only [Token.track, closes] at last
          cases middle with
          | nil => cases last
          | cons innermost outer =>
              dsimp only at last
              split at last
              · next opened =>
                  cases last
                  rw [List.reverse_cons] at leaves
                  exact leaves.append_closing opened closes
              · cases last

end LeavesOpen

theorem WellNested.checkNested (nested : WellNested tokens) :
    Token.checkNested tokens = .ok () := by
  rw [Token.checkNested, nested.track, ok_bind]
  rfl

theorem FirstFault.checkNested (faulty : FirstFault tokens fault) :
    Token.checkNested tokens = .error fault := by
  unfold Token.checkNested
  cases faulty with
  | unexpected same closes leaves =>
      rw [same, List.foldlM_append, leaves.track, ok_bind, List.foldlM_cons]
      simp [track, closes]
  | mismatched same closes leaves opened other =>
      rw [same, List.foldlM_append, leaves.track, ok_bind, List.foldlM_cons]
      simp [track, closes, opened, other]
  | unclosed leaves opened =>
      rw [leaves.track, ok_bind]
      simp [opened]

theorem exists_of_track_error (failed : tokens.foldlM track [] = .error fault) :
    ∃ before token after opens, tokens = before ++ token :: after ∧
      LeavesOpen before opens.reverse ∧ track opens token = .error fault := by
  induction tokens using List.reverseRecOn with
  | nil => cases failed
  | append_singleton before token ih =>
      rw [List.foldlM_append] at failed
      cases outcome : before.foldlM track [] with
      | error sooner =>
          rw [outcome] at failed
          cases failed
          obtain ⟨front, here, back, opens, rfl, leaves, fails⟩ := ih outcome
          exact ⟨front, here, back ++ [token], opens, by simp, leaves, fails⟩
      | ok opens =>
          rw [outcome, ok_bind, List.foldlM_cons] at failed
          cases last : track opens token with
          | error problem =>
              rw [last] at failed
              cases failed
              exact ⟨before, token, [], opens, rfl, .of_track outcome, last⟩
          | ok next =>
              rw [last] at failed
              cases failed

theorem wellNested_or_fault (tokens : List Token) :
    WellNested tokens ∨ ∃ fault, FirstFault tokens fault := by
  cases outcome : tokens.foldlM track [] with
  | ok opens =>
      have leaves := LeavesOpen.of_track outcome
      cases opens with
      | nil =>
          cases leaves with
          | none nested => exact .inl nested
      | cons innermost outer =>
          rw [List.reverse_cons] at leaves
          obtain ⟨name, opened⟩ := leaves.opened List.mem_concat_self
          exact .inr ⟨_, .unclosed leaves opened⟩
  | error fault =>
      obtain ⟨before, token, after, opens, rfl, leaves, fails⟩ := exists_of_track_error outcome
      right
      unfold track at fails
      split at fails
      · cases fails
      · next name closes =>
          split at fails
          · exact ⟨_, .unexpected rfl closes leaves⟩
          · next innermost outer =>
              rw [List.reverse_cons] at leaves
              obtain ⟨expected, opened⟩ := leaves.opened List.mem_concat_self
              split at fails
              · cases fails
              · next other =>
                  refine ⟨_, .mismatched rfl closes leaves opened ?_⟩
                  rintro rfl
                  exact other opened

end Token

end Stencil
