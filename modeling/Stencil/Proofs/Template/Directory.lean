import Mathlib.Data.List.DropRight
import Stencil.Proofs.Files.Tree
import Stencil.Template.Directory

/-!
Names of templates in a directory. Main statements: a name that is relative to its caller stays
below the directory if the name of the caller does, and of the caller's name it depends on the
directories alone that it does not go up from.
-/

namespace Stencil

namespace TemplateDirectory

open Stencil.Path

variable {directory : TemplateDirectory} {name caller other found piece first : String}
  {parts rest : List String} {stack : TemplateStack}

def directories (name : String) : List String := components ((parent? name).getD "")

theorem directories_eq (split : pieces name = first :: rest) :
    directories name =
      if trimEnd rest = [] then []
      else (if isAbsolute name then "/" else first) ::
        (trimEnd rest).dropLast.filter isComponent := by
  have inline : ∀ part ∈ first :: rest, '/' ∉ part.toList := fun part member =>
    not_mem_of_mem_pieces (split ▸ member)
  by_cases trimmed : trimEnd rest = []
  · rw [if_pos trimmed, directories, parent?, split]
    simp only [trimmed, List.isEmpty_nil, if_true]
    split <;> rfl
  · rw [if_neg trimmed, directories, parent?, split, ← filter_trimEnd (trimEnd rest).dropLast]
    simp only [List.isEmpty_iff, trimmed, if_false, Bool.and_eq_true, decide_eq_true_eq,
      List.length_cons, Nat.add_eq_right, List.length_eq_zero_iff]
    have shorter : (trimEnd rest).dropLast <+: trimEnd rest := List.dropLast_prefix _
    have within : trimEnd (trimEnd rest).dropLast <+: rest :=
      ((isPrefix_trimEnd _).trans shorter).trans (isPrefix_trimEnd rest)
    have filled : rest ≠ [] := by
      rintro rfl
      exact trimmed rfl
    have leading : isAbsolute name = true ↔ first = "" := by
      obtain ⟨second, more, rfl⟩ := List.exists_cons_of_ne_nil filled
      simp [isAbsolute_iff, split]
    generalize trimEnd (trimEnd rest).dropLast = above at within ⊢
    have parts : ∀ part ∈ first :: above, '/' ∉ part.toList := fun part member =>
      inline part ((List.cons_prefix_cons.mpr ⟨rfl, within⟩).subset member)
    by_cases root : isAbsolute name = true ∧ above = []
    · obtain ⟨absolute, rfl⟩ := root
      rw [if_pos ⟨absolute, rfl⟩, if_pos absolute]
      rfl
    · have shown : first ≠ "" ∨ above ≠ [] := by
        by_contra empty
        simp_all
      rw [if_neg root, Option.getD_some, components_intercalate parts shown]
      simp only [leading]

theorem fullName_of_isRelative (relative : isRelative name = true) (caller : String) :
    fullName name caller = "/".intercalate ((pieces name).foldl followPiece (directories caller)) :=
  if_pos relative

theorem followPiece_cases (parts : List String) (piece : String) :
    followPiece parts piece = parts ∨ followPiece parts piece = parts.dropLast ∨
      isComponent piece = true ∧ piece ≠ ".." ∧ followPiece parts piece = parts ++ [piece] := by
  unfold followPiece
  split
  · exact .inr (.inl rfl)
  · next down =>
      split
      · next component => exact .inr (.inr ⟨component, down, rfl⟩)
      · exact .inl rfl

theorem forall_mem_followPiece {P : String → Prop} (each : ∀ part ∈ parts, P part)
    (named : isComponent piece = true → P piece) : ∀ part ∈ followPiece parts piece, P part := by
  obtain same | same | ⟨component, -, same⟩ := followPiece_cases parts piece
  all_goals rw [same]
  · exact each
  · exact fun part member => each part (List.dropLast_subset parts member)
  · exact List.forall_mem_append.mpr ⟨each, List.forall_mem_singleton.mpr (named component)⟩

section Below

structure AreBelow (parts : List String) : Prop where
  descends : Descends parts
  named : ∀ part ∈ parts, part ≠ "" ∧ '/' ∉ part.toList

theorem AreBelow.followPiece (below : AreBelow parts) (inline : '/' ∉ piece.toList) :
    AreBelow (followPiece parts piece) := by
  have here (component : isComponent piece = true) : piece ≠ "" ∧ '/' ∉ piece.toList :=
    ⟨ne_empty_of_isComponent component, inline⟩
  have named := forall_mem_followPiece below.named here
  obtain same | same | ⟨-, down, same⟩ := followPiece_cases parts piece
  all_goals
    refine ⟨?_, named⟩
    rw [same]
  · exact below.descends
  · obtain ⟨more, whole⟩ := List.dropLast_prefix parts
    exact (whole ▸ below.descends).of_append
  · exact below.descends.append (.singleton down)

theorem AreBelow.foldl {pieces : List String} (below : AreBelow parts)
    (inline : ∀ piece ∈ pieces, '/' ∉ piece.toList) :
    AreBelow (pieces.foldl TemplateDirectory.followPiece parts) := by
  induction pieces generalizing parts with
  | nil => exact below
  | cons piece rest ih =>
      obtain ⟨here, further⟩ := List.forall_mem_cons.mp inline
      exact ih (below.followPiece here) further

theorem AreBelow.staysBelow (below : AreBelow parts) : StaysBelow ("/".intercalate parts) := by
  cases parts with
  | nil => decide
  | cons first rest =>
      have split : pieces ("/".intercalate (first :: rest)) = first :: rest := by
        rw [pieces_intercalate (List.cons_ne_nil first rest),
          flatMap_pieces fun part member => (below.named part member).2]
      refine ⟨Bool.eq_false_iff.mpr fun absolute => ?_, by rw [split]; exact below.descends⟩
      obtain ⟨next, more, lead⟩ := isAbsolute_iff.mp absolute
      rw [split] at lead
      exact (below.named first (List.mem_cons_self ..)).1 (List.cons.inj lead).1

theorem areBelow_directories (stays : StaysBelow name) : AreBelow (directories name) := by
  obtain ⟨relative, descends⟩ := stays
  obtain ⟨first, rest, split⟩ := List.exists_cons_of_ne_nil (pieces_ne_nil name)
  rw [directories_eq split, relative]
  split
  · exact ⟨rfl, List.forall_mem_nil _⟩
  · next trimmed =>
      have filled : first ≠ "" := by
        rintro rfl
        cases rest with
        | nil => exact trimmed rfl
        | cons second more => simp [isAbsolute_iff.mpr ⟨second, more, split⟩] at relative
      have shorter : (trimEnd rest).dropLast <+: trimEnd rest := List.dropLast_prefix _
      obtain ⟨more, whole⟩ := shorter.trans (isPrefix_trimEnd rest)
      have within (part : String) (member : part ∈ (trimEnd rest).dropLast) :
          part ∈ pieces name := by
        rw [split, ← whole]
        simp [member]
      rw [split, ← whole, ← List.cons_append] at descends
      refine ⟨descends.of_append.cons_filter, List.forall_mem_cons.mpr ⟨⟨filled, ?_⟩, ?_⟩⟩
      · exact not_mem_of_mem_pieces (split ▸ List.mem_cons_self ..)
      · intro part member
        obtain ⟨inside, component⟩ := List.mem_filter.mp member
        exact ⟨ne_empty_of_isComponent component, not_mem_of_mem_pieces (within part inside)⟩

theorem staysBelow_fullName (calling : StaysBelow caller)
    (confined : isRelative name = true ∨ StaysBelow name) : StaysBelow (fullName name caller) := by
  unfold fullName
  split
  · exact ((areBelow_directories calling).foldl fun piece => not_mem_of_mem_pieces).staysBelow
  · next plain => exact confined.resolve_left plain

theorem locate_cases (located : directory.locate name stack = .ok found) :
    directory.tree.isFile (directory.path found) = true ∧
      (found = fullName name stack.top.name ∨
        found = fullName name stack.top.name ++ "." ++ directory.extension) := by
  unfold locate at located
  dsimp only at located
  split at located
  · next plain =>
      cases located
      exact ⟨plain, .inl rfl⟩
  · split at located
    · next extended =>
        cases located
        exact ⟨(Bool.and_eq_true_iff.mp extended).2, .inr rfl⟩
    · cases located

theorem staysBelow_of_locate (extension : IsFileName directory.extension)
    (calling : StaysBelow stack.top.name) (confined : isRelative name = true ∨ StaysBelow name)
    (located : directory.locate name stack = .ok found) : StaysBelow found := by
  have full := staysBelow_fullName calling confined
  obtain ⟨-, rfl | rfl⟩ := locate_cases located
  · exact full
  · exact full.extended extension

theorem exists_locate_of_fetch {position : Position} {template : Template}
    (fetched : directory.library.fetch name stack position = .ok template) :
    ∃ found, directory.locate (Fragment.ofName name).1 stack = .ok found ∧
      ((Fragment.ofName name).2 = none ∧ template.name = found ∨
        ∃ fragment, (Fragment.ofName name).2 = some fragment ∧
          template.name = found ++ "#" ++ fragment) := by
  unfold Library.fetch at fetched
  dsimp only at fetched
  obtain ⟨whole, loaded, fetched⟩ := bind_eq_ok.mp fetched
  obtain ⟨found, located, read⟩ := bind_eq_ok.mp (mapError_eq_ok.mp loaded)
  obtain ⟨text, -, read⟩ := bind_eq_ok.mp read
  cases read
  refine ⟨found, located, ?_⟩
  split at fetched
  · next none =>
      cases fetched
      exact .inl ⟨none, rfl⟩
  · next fragment some =>
      obtain ⟨body, -, fetched⟩ := bind_eq_ok.mp fetched
      split at fetched <;> cases fetched
      exact .inr ⟨fragment, some, rfl⟩

end Below

section Climbs

/-- How many directories a relative name has gone up from the one it is used in, and what it has
gone through from there, behind one more piece. -/
def climb (gone : Nat × List String) (piece : String) : Nat × List String :=
  if piece = ".." then
    if gone.2 = [] then (gone.1 + 1, []) else (gone.1, gone.2.dropLast)
  else if isComponent piece then (gone.1, gone.2 ++ [piece])
  else gone

/-- How many directories a relative name goes up from the one it is used in. -/
def climbs (name : String) : Nat := ((pieces name).foldl climb (0, [])).1

theorem dropLast_rdrop (parts : List String) (up : Nat) :
    (parts.rdrop up).dropLast = parts.rdrop (up + 1) := by
  rw [List.rdrop, List.rdrop, List.dropLast_eq_take, List.take_take, List.length_take]
  congr 1
  omega

theorem followPiece_climb (parts : List String) (gone : Nat × List String) (piece : String) :
    followPiece (parts.rdrop gone.1 ++ gone.2) piece =
      parts.rdrop (climb gone piece).1 ++ (climb gone piece).2 := by
  obtain ⟨up, down⟩ := gone
  unfold followPiece climb
  split
  · by_cases none : down = []
    · rw [if_pos none, none, List.append_nil, List.append_nil, dropLast_rdrop]
    · rw [if_neg none, List.dropLast_append_of_ne_nil none]
  · split
    · rw [List.append_assoc]
    · rfl

theorem foldl_followPiece (parts : List String) (gone : Nat × List String) (pieces : List String) :
    pieces.foldl followPiece (parts.rdrop gone.1 ++ gone.2) =
      parts.rdrop (pieces.foldl climb gone).1 ++ (pieces.foldl climb gone).2 := by
  induction pieces generalizing gone with
  | nil => rfl
  | cons piece rest ih => rw [List.foldl_cons, followPiece_climb, ih, List.foldl_cons]

theorem isPart_of_mem_foldl {pieces : List String} (each : ∀ part ∈ parts, IsPart part)
    (inline : ∀ piece ∈ pieces, '/' ∉ piece.toList) :
    ∀ part ∈ pieces.foldl followPiece parts, IsPart part := by
  induction pieces generalizing parts with
  | nil => exact each
  | cons piece rest ih =>
      obtain ⟨here, further⟩ := List.forall_mem_cons.mp inline
      refine ih (forall_mem_followPiece each fun component => ?_) further
      exact .inr ⟨ne_empty_of_isComponent component, here⟩

/-- Two callers give a relative name the same meaning if what it leaves of their directories is the
same, and only then. -/
theorem fullName_eq_iff (relative : isRelative name = true) :
    fullName name caller = fullName name other ↔
      (directories caller).rdrop (climbs name) = (directories other).rdrop (climbs name) := by
  have folded (parts : List String) : (pieces name).foldl followPiece parts =
      parts.rdrop (climbs name) ++ ((pieces name).foldl climb (0, [])).2 := by
    have gone := foldl_followPiece parts (0, []) (pieces name)
    rwa [List.rdrop_zero, List.append_nil] at gone
  have parts (caller : String) :
      ∀ part ∈ (pieces name).foldl followPiece (directories caller), IsPart part :=
    isPart_of_mem_foldl (isPart_of_mem_components _) fun piece => not_mem_of_mem_pieces
  rw [fullName_of_isRelative relative, fullName_of_isRelative relative]
  constructor
  · intro same
    have alike := eq_of_intercalate_eq (parts caller) (parts other) same
    rw [folded, folded] at alike
    exact List.append_cancel_right alike
  · intro same
    rw [folded, folded, same]

theorem fullName_eq_iff_of_inline (relative : isRelative name = true)
    (inline : '/' ∉ caller.toList) :
    fullName name caller = fullName name other ↔ (directories other).length ≤ climbs name := by
  have none : directories caller = [] := directories_eq (pieces_eq_singleton inline)
  rw [fullName_eq_iff relative, none, List.rdrop_nil, eq_comm, List.rdrop, List.take_eq_nil_iff,
    ← List.length_eq_zero_iff]
  omega

theorem toOption_fetch_congr {stack other : TemplateStack}
    (same : fullName (Fragment.ofName name).1 stack.top.name =
      fullName (Fragment.ofName name).1 other.top.name) (position : Position) :
    (directory.library.fetch name stack position).toOption =
      (directory.library.fetch name other position).toOption := by
  have served : directory.library (Fragment.ofName name).1 stack =
      directory.library (Fragment.ofName name).1 other := by
    unfold library locate
    rw [same]
  unfold Library.fetch
  dsimp only
  rw [served]
  cases directory.library (Fragment.ofName name).1 other with
  | error problem => rfl
  | ok whole =>
      dsimp only [Except.mapError, ok_bind]
      split
      · rfl
      · next fragment _ =>
          cases Fragment.find? whole.name whole.source fragment with
          | error problem => rfl
          | ok body => cases body <;> rfl

end Climbs

end TemplateDirectory

end Stencil
