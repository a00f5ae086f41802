import Mathlib.Data.List.DropRight
import Stencil.Files.Path
import Stencil.Proofs.Text.Splitting

/-!
Paths that stay below the place that they are followed from: `..` undoes a component in front of it,
and never goes further up. And paths put together from components, which differ if these do.
-/

namespace Stencil.Path

variable {path front back piece : String} {parts more : List String} {depth deep : Nat}

section Pieces

theorem pieces_ne_nil (path : String) : pieces path ≠ [] := by
  simp [pieces, Text.splitOn_ne_nil]

theorem not_mem_of_mem_pieces (member : piece ∈ pieces path) : '/' ∉ piece.toList := by
  obtain ⟨cs, inside, rfl⟩ := List.mem_map.mp member
  rw [String.toList_ofList]
  exact Text.not_mem_of_mem_splitOn inside

theorem pieces_eq_singleton (inline : '/' ∉ path.toList) : pieces path = [path] := by
  rw [pieces, Text.splitOn_eq_singleton inline, List.map_singleton, String.ofList_toList]

theorem pieces_slash (front back : String) :
    pieces (front ++ "/" ++ back) = pieces front ++ pieces back := by
  have spelled : (front ++ "/" ++ back).toList = front.toList ++ '/' :: back.toList := by simp
  rw [pieces, spelled, Text.splitOn_separator, List.map_append]
  rfl

theorem intercalate_cons_cons (first second : String) (rest : List String) :
    "/".intercalate (first :: second :: rest) =
      first ++ "/" ++ "/".intercalate (second :: rest) := by
  rw [← String.toList_inj]
  simp only [String.toList_intercalate, String.toList_append, List.map_cons,
    List.intercalate_cons_cons]

theorem pieces_intercalate (filled : parts ≠ []) :
    pieces ("/".intercalate parts) = parts.flatMap pieces := by
  induction parts with
  | nil => contradiction
  | cons first rest ih =>
      cases rest with
      | nil => simp
      | cons second rest =>
          rw [intercalate_cons_cons, pieces_slash, ih (List.cons_ne_nil second rest)]
          exact List.flatMap_cons.symm

theorem flatMap_pieces (inline : ∀ part ∈ parts, '/' ∉ part.toList) :
    parts.flatMap pieces = parts := by
  induction parts with
  | nil => rfl
  | cons first rest ih =>
      obtain ⟨here, further⟩ := List.forall_mem_cons.mp inline
      rw [List.flatMap_cons, pieces_eq_singleton here, ih further, List.singleton_append]

theorem exists_pieces_append (front : String) :
    ∃ init last, pieces front = init ++ [last] ∧
      ∀ {back first rest}, pieces back = first :: rest →
        pieces (front ++ back) = init ++ (last ++ first) :: rest := by
  obtain ⟨init, last, cut, joined⟩ := Text.exists_splitOn_append '/' front.toList
  refine ⟨init.map String.ofList, String.ofList last, by simp [pieces, cut], fun split => ?_⟩
  obtain ⟨first, rest, again, rfl, rfl⟩ := List.map_eq_cons_iff.mp split
  rw [pieces, String.toList_append, joined again, List.map_append, List.map_cons,
    String.ofList_append]

theorem isAbsolute_iff :
    isAbsolute path = true ↔ ∃ next rest, pieces path = "" :: next :: rest := by
  unfold isAbsolute pieces
  cases path.toList with
  | nil => simp [Text.splitOn]
  | cons c rest =>
      cases cut : Text.splitOn '/' rest with
      | nil => exact absurd cut (Text.splitOn_ne_nil '/' rest)
      | cons piece more =>
          by_cases slash : c = '/'
          · simp [Text.splitOn, slash, cut]
          · simp [Text.splitOn, slash, cut]

end Pieces

def descend? (depth : Nat) (piece : String) : Option Nat :=
  if piece = ".." then if depth = 0 then none else some (depth - 1)
  else if isComponent piece then some (depth + 1)
  else some depth

/-- That pieces followed one after another never go above the place that they are followed from. -/
def Descends (pieces : List String) : Prop := (pieces.foldlM descend? 0).isSome = true

instance (pieces : List String) : Decidable (Descends pieces) :=
  inferInstanceAs (Decidable (_ = _))

/-- That a path is relative, and leads to no place above the one that it is followed from. -/
def StaysBelow (path : String) : Prop := isAbsolute path = false ∧ Descends (pieces path)

instance (path : String) : Decidable (StaysBelow path) := inferInstanceAs (Decidable (_ ∧ _))

def IsFileName (path : String) : Prop :=
  '/' ∉ path.toList ∧ path ≠ "" ∧ path ≠ "." ∧ path ≠ ".."

instance (path : String) : Decidable (IsFileName path) := inferInstanceAs (Decidable (_ ∧ _))

theorem descend?_up : descend? (depth + 1) ".." = some depth := rfl

theorem descend?_component (component : isComponent piece = true) (down : piece ≠ "..") :
    descend? depth piece = some (depth + 1) := by
  rw [descend?, if_neg down, if_pos component]

theorem descend?_skip (skipped : isComponent piece = false) :
    descend? depth piece = some depth := by
  have down : piece ≠ ".." := by
    rintro rfl
    cases skipped
  rw [descend?, if_neg down, if_neg (by simp [skipped])]

theorem exists_descend?_of_le {lower upper : Nat} (le : lower ≤ upper)
    (found : descend? lower piece = some deep) :
    ∃ deeper, descend? upper piece = some deeper ∧ deep ≤ deeper := by
  by_cases up : piece = ".."
  · subst up
    cases lower with
    | zero => cases found
    | succ lower =>
        obtain rfl : lower = deep := Option.some.inj found
        obtain ⟨above, rfl⟩ := Nat.exists_eq_add_of_le le
        exact ⟨lower + above, by rw [Nat.add_right_comm]; rfl, Nat.le_add_right ..⟩
  · cases component : isComponent piece with
    | true =>
        rw [descend?_component component up] at found ⊢
        obtain rfl := Option.some.inj found
        exact ⟨upper + 1, rfl, Nat.succ_le_succ le⟩
    | false =>
        rw [descend?_skip component] at found ⊢
        obtain rfl := Option.some.inj found
        exact ⟨upper, rfl, le⟩

theorem exists_foldlM_of_le {lower upper : Nat} (le : lower ≤ upper)
    (found : parts.foldlM descend? lower = some deep) :
    ∃ deeper, parts.foldlM descend? upper = some deeper ∧ deep ≤ deeper := by
  induction parts generalizing lower upper with
  | nil =>
      obtain rfl : lower = deep := Option.some.inj found
      exact ⟨upper, rfl, le⟩
  | cons piece rest ih =>
      rw [List.foldlM_cons] at found
      obtain ⟨middle, here, further⟩ := Option.bind_eq_some_iff.mp found
      obtain ⟨lower, again, below⟩ := exists_descend?_of_le le here
      obtain ⟨deeper, all, bound⟩ := ih below further
      refine ⟨deeper, ?_, bound⟩
      rw [List.foldlM_cons, again]
      exact all

theorem foldlM_filter (parts : List String) (depth : Nat) :
    (parts.filter isComponent).foldlM descend? depth = parts.foldlM descend? depth := by
  induction parts generalizing depth with
  | nil => rfl
  | cons piece rest ih =>
      cases component : isComponent piece with
      | true =>
          rw [List.filter_cons_of_pos component, List.foldlM_cons, List.foldlM_cons]
          exact congrArg _ (funext ih)
      | false =>
          rw [List.filter_cons_of_neg (by simp [component]), List.foldlM_cons,
            descend?_skip component]
          exact ih depth

namespace Descends

theorem of_append (descends : Descends (parts ++ more)) : Descends parts := by
  unfold Descends at descends
  rw [List.foldlM_append] at descends
  obtain ⟨deep, found⟩ := Option.isSome_iff_exists.mp descends
  obtain ⟨middle, first, -⟩ := Option.bind_eq_some_iff.mp found
  exact Option.isSome_iff_exists.mpr ⟨middle, first⟩

theorem append (first : Descends parts) (second : Descends more) : Descends (parts ++ more) := by
  obtain ⟨middle, reached⟩ := Option.isSome_iff_exists.mp first
  obtain ⟨deep, further⟩ := Option.isSome_iff_exists.mp second
  obtain ⟨deeper, all, -⟩ := exists_foldlM_of_le (Nat.zero_le middle) further
  refine Option.isSome_iff_exists.mpr ⟨deeper, ?_⟩
  rw [List.foldlM_append, reached]
  exact all

theorem singleton (down : piece ≠ "..") : Descends [piece] := by
  unfold Descends descend?
  simp only [List.foldlM_cons, List.foldlM_nil, if_neg down]
  split <;> rfl

theorem replace_head {other : String} (descends : Descends (piece :: parts))
    (component : isComponent other = true) (down : other ≠ "..") : Descends (other :: parts) := by
  obtain ⟨deep, found⟩ := Option.isSome_iff_exists.mp descends
  rw [List.foldlM_cons] at found
  obtain ⟨middle, here, further⟩ := Option.bind_eq_some_iff.mp found
  have low : middle ≤ 1 := by
    unfold descend? at here
    repeat' split at here
    all_goals cases here
    all_goals omega
  obtain ⟨deeper, all, -⟩ := exists_foldlM_of_le low further
  refine Option.isSome_iff_exists.mpr ⟨deeper, ?_⟩
  rw [List.foldlM_cons, descend?_component component down]
  exact all

theorem cons_filter (descends : Descends (piece :: parts)) :
    Descends (piece :: parts.filter isComponent) := by
  unfold Descends at descends ⊢
  rw [List.foldlM_cons] at descends ⊢
  simpa only [foldlM_filter] using descends

end Descends

theorem IsFileName.staysBelow (named : IsFileName path) : StaysBelow path := by
  obtain ⟨inline, -, -, down⟩ := named
  have single := pieces_eq_singleton inline
  refine ⟨?_, single ▸ Descends.singleton down⟩
  refine Bool.eq_false_iff.mpr fun absolute => ?_
  obtain ⟨next, rest, split⟩ := isAbsolute_iff.mp absolute
  rw [single] at split
  cases split

theorem StaysBelow.append {first : String} {rest : List String} (stays : StaysBelow path)
    (split : pieces back = first :: rest) (descends : Descends (first :: rest))
    (named : ∀ last, isComponent (last ++ first) = true ∧ last ++ first ≠ "..") :
    StaysBelow (path ++ back) := by
  obtain ⟨relative, below⟩ := stays
  obtain ⟨init, last, cut, joined⟩ := exists_pieces_append path
  obtain ⟨component, down⟩ := named last
  have spelled := joined split
  refine ⟨Bool.eq_false_iff.mpr fun absolute => ?_, ?_⟩
  · obtain ⟨next, more, lead⟩ := isAbsolute_iff.mp absolute
    rw [spelled] at lead
    cases init with
    | nil =>
        obtain ⟨empty, -⟩ := List.cons.inj lead
        rw [empty] at component
        cases component
    | cons piece init =>
        obtain ⟨rfl, -⟩ := List.cons.inj lead
        have absolute : isAbsolute path = true := by
          apply isAbsolute_iff.mpr
          cases init with
          | nil => exact ⟨_, _, cut⟩
          | cons second init => exact ⟨_, _, cut⟩
        cases absolute.symm.trans relative
  · rw [spelled]
    rw [cut] at below
    exact below.of_append.append (descends.replace_head component down)

theorem isComponent_of_mem {c : Char} (member : c ∈ piece.toList) (other : c ≠ '.') :
    isComponent piece = true ∧ piece ≠ ".." := by
  refine ⟨?_, ?_⟩
  · simp only [isComponent, Bool.and_eq_true, decide_eq_true_eq]
    constructor
    all_goals
      rintro rfl
      simp_all
  · rintro rfl
    simp_all

theorem StaysBelow.extended {extension : String} (stays : StaysBelow path)
    (named : IsFileName extension) : StaysBelow (path ++ "." ++ extension) := by
  obtain ⟨inline, filled, dot, -⟩ := named
  have single : pieces ("." ++ extension) = ["." ++ extension] :=
    pieces_eq_singleton (by simp [inline])
  have behind (last : String) : isComponent (last ++ ("." ++ extension)) = true ∧
      last ++ ("." ++ extension) ≠ ".." := by
    rw [ne_eq, ← String.toList_inj] at filled dot
    have long : (last ++ ("." ++ extension)).toList = last.toList ++ '.' :: extension.toList := by
      simp
    simp only [isComponent, Bool.and_eq_true, decide_eq_true_eq, ne_eq, ← String.toList_inj, long]
    cases last.toList with
    | nil => simp_all
    | cons c rest => cases rest <;> simp_all
  rw [String.append_assoc]
  refine stays.append single (.singleton ?_) behind
  simpa using (behind "").2

theorem StaysBelow.fragment {fragment : String} (stays : StaysBelow path)
    (descends : Descends (pieces fragment)) : StaysBelow (path ++ "#" ++ fragment) := by
  have behind (last first : String) : isComponent (last ++ ("#" ++ first)) = true ∧
      last ++ ("#" ++ first) ≠ ".." :=
    isComponent_of_mem (c := '#') (by simp) (by decide)
  obtain ⟨init, last, mark, joined⟩ := exists_pieces_append "#"
  obtain ⟨rfl, rfl⟩ : init = [] ∧ last = "#" := by
    rw [pieces_eq_singleton (by decide), eq_comm] at mark
    simpa [List.append_eq_singleton_iff] using mark
  cases split : pieces fragment with
  | nil => exact absurd split (pieces_ne_nil fragment)
  | cons first rest =>
      rw [split] at descends
      obtain ⟨component, down⟩ := behind "" first
      rw [String.empty_append] at component down
      rw [String.append_assoc]
      exact stays.append (joined split) (descends.replace_head component down) (behind · first)

section Components

variable {first name : String} {others rest : List String}

theorem ne_empty_of_isComponent (component : isComponent piece = true) : piece ≠ "" := by
  rintro rfl
  cases component

theorem isPrefix_trimEnd (parts : List String) : trimEnd parts <+: parts :=
  List.rdropWhile_prefix _ (l := parts)

theorem filter_trimEnd (parts : List String) :
    (trimEnd parts).filter isComponent = parts.filter isComponent := by
  have skipped : (parts.rtakeWhile (!isComponent ·)).filter isComponent = [] := by
    refine List.filter_eq_nil_iff.mpr fun part member => ?_
    simpa using List.mem_rtakeWhile_imp member
  calc (trimEnd parts).filter isComponent
      = (trimEnd parts ++ parts.rtakeWhile (!isComponent ·)).filter isComponent := by
        rw [List.filter_append, skipped, List.append_nil]
    _ = parts.filter isComponent := congrArg _ List.rdropWhile_append_rtakeWhile

theorem components_intercalate (inline : ∀ part ∈ first :: rest, '/' ∉ part.toList)
    (filled : first ≠ "" ∨ rest ≠ []) :
    components ("/".intercalate (first :: rest)) =
      (if first = "" then "/" else first) :: rest.filter isComponent := by
  have split : pieces ("/".intercalate (first :: rest)) = first :: rest := by
    rw [pieces_intercalate (List.cons_ne_nil first rest), flatMap_pieces inline]
  unfold components
  rw [split]
  dsimp only
  by_cases empty : first = ""
  · obtain ⟨second, more, rfl⟩ := List.exists_cons_of_ne_nil (filled.resolve_left (· empty))
    rw [empty] at split
    rw [empty, if_pos (isAbsolute_iff.mpr ⟨second, more, split⟩), if_pos rfl, List.singleton_append]
  · have relative : ¬ isAbsolute ("/".intercalate (first :: rest)) = true := by
      simp [isAbsolute_iff, split, empty]
    rw [if_neg empty, if_neg relative, if_neg (by simpa using empty), List.singleton_append]

def IsPart (part : String) : Prop := part = "/" ∨ part ≠ "" ∧ '/' ∉ part.toList

theorem isPart_of_mem_components (path : String) : ∀ part ∈ components path, IsPart part := by
  unfold components
  split
  · exact List.forall_mem_nil _
  · next first rest split =>
      have inline (part : String) (member : part ∈ first :: rest) : '/' ∉ part.toList :=
        not_mem_of_mem_pieces (split ▸ member)
      refine List.forall_mem_append.mpr ⟨?_, fun part member => ?_⟩
      · split
        · exact List.forall_mem_singleton.mpr (.inl rfl)
        · split
          · exact List.forall_mem_nil _
          · next filled =>
              refine List.forall_mem_singleton.mpr (.inr ⟨by simpa using filled, ?_⟩)
              exact inline first (List.mem_cons_self ..)
      · obtain ⟨inside, component⟩ := List.mem_filter.mp member
        exact .inr ⟨ne_empty_of_isComponent component, inline part (List.mem_cons_of_mem _ inside)⟩

theorem IsPart.pieces {part : String} (isPart : IsPart part) :
    part = "/" ∧ Path.pieces part = ["", ""] ∨ part ≠ "" ∧ Path.pieces part = [part] := by
  obtain rfl | ⟨filled, inline⟩ := isPart
  · exact .inl ⟨rfl, by decide⟩
  · exact .inr ⟨filled, pieces_eq_singleton inline⟩

theorem eq_of_flatMap_pieces_eq (each : ∀ part ∈ parts, IsPart part)
    (all : ∀ part ∈ others, IsPart part) (same : parts.flatMap pieces = others.flatMap pieces) :
    parts = others := by
  induction parts generalizing others with
  | nil =>
      cases others with
      | nil => rfl
      | cons other others => simp [pieces_ne_nil] at same
  | cons part parts ih =>
      cases others with
      | nil => simp [pieces_ne_nil] at same
      | cons other others =>
          obtain ⟨here, eachLater⟩ := List.forall_mem_cons.mp each
          obtain ⟨there, allLater⟩ := List.forall_mem_cons.mp all
          rw [List.flatMap_cons, List.flatMap_cons] at same
          obtain ⟨rfl, cut⟩ | ⟨filled, cut⟩ := here.pieces
          · obtain ⟨rfl, -⟩ | ⟨named, again⟩ := there.pieces
            · rw [ih eachLater allLater (List.append_cancel_left same)]
            · rw [cut, again] at same
              exact absurd (List.cons.inj same).1.symm named
          · obtain ⟨rfl, again⟩ | ⟨named, again⟩ := there.pieces
            · rw [cut, again] at same
              exact absurd (List.cons.inj same).1 filled
            · rw [cut, again] at same
              obtain ⟨rfl, same⟩ := List.cons.inj same
              rw [ih eachLater allLater (List.append_cancel_left same)]

theorem intercalate_ne_empty (each : ∀ part ∈ parts, IsPart part) (filled : parts ≠ []) :
    "/".intercalate parts ≠ "" := by
  intro empty
  have cut := pieces_intercalate filled
  obtain ⟨part, parts, rfl⟩ := List.exists_cons_of_ne_nil filled
  rw [empty, List.flatMap_cons, pieces_eq_singleton List.not_mem_nil] at cut
  obtain ⟨rfl, split⟩ | ⟨named, split⟩ := (each part (List.mem_cons_self ..)).pieces
  all_goals simp_all

theorem eq_of_intercalate_eq (each : ∀ part ∈ parts, IsPart part)
    (all : ∀ part ∈ others, IsPart part)
    (same : "/".intercalate parts = "/".intercalate others) : parts = others := by
  by_cases none : parts = []
  · subst none
    by_contra some
    exact intercalate_ne_empty all (Ne.symm some) same.symm
  · by_cases empty : others = []
    · subst empty
      exact absurd same (intercalate_ne_empty each none)
    · have cut := congrArg pieces same
      rw [pieces_intercalate none, pieces_intercalate empty] at cut
      exact eq_of_flatMap_pieces_eq each all cut

end Components

end Stencil.Path
