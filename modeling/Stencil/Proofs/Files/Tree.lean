import Stencil.Files.Tree
import Stencil.Proofs.Files.Path
import Stencil.Proofs.Results

/-!
Where paths lead in a tree of files. Main statement: a path that stays below a directory leads to a
place within it.
-/

namespace Stencil.FileTree

open Stencil.Path

variable {tree : FileTree} {place next base rest : List String} {piece root name : String}
  {pieces : List String} {depth : Nat}

theorem follow_cases (followed : tree.follow place piece = .ok next) :
    tree.isDirectory place = true ∧
      (isComponent piece = false ∧ next = place ∨
        piece = ".." ∧ next = place.dropLast ∨
        isComponent piece = true ∧ piece ≠ ".." ∧ next = place ++ [piece]) := by
  unfold follow at followed
  split at followed
  · cases followed
  · next directory =>
      refine ⟨by simpa using directory, ?_⟩
      split at followed
      · next skipped =>
          cases followed
          exact .inl ⟨by simpa using skipped, rfl⟩
      · next component =>
          split at followed
          · next up =>
              cases followed
              exact .inr (.inl ⟨up, rfl⟩)
          · next down =>
              split at followed
              · cases followed
              · dsimp only at followed
                split at followed <;> cases followed
                exact .inr (.inr ⟨by simpa using component, down, rfl⟩)

theorem isDirectory_of_foldlM (filled : pieces ≠ [])
    (followed : pieces.foldlM tree.follow base = .ok place) : tree.isDirectory base = true := by
  cases pieces with
  | nil => contradiction
  | cons piece rest =>
      obtain ⟨next, here, -⟩ := bind_eq_ok.mp followed
      exact (follow_cases here).1

theorem follow_empty (directory : tree.isDirectory place = true) :
    tree.follow place "" = .ok place := by
  rw [follow, directory]
  rfl

theorem exists_of_foldlM_follow (followed : pieces.foldlM tree.follow (base ++ rest) = .ok place)
    (descends : pieces.foldlM descend? rest.length = some depth) :
    ∃ more, place = base ++ more ∧ more.length = depth := by
  induction pieces generalizing rest with
  | nil =>
      cases followed
      exact ⟨rest, rfl, Option.some.inj descends⟩
  | cons piece pieces ih =>
      rw [List.foldlM_cons] at followed descends
      obtain ⟨next, here, followed⟩ := bind_eq_ok.mp followed
      obtain ⟨middle, step, descends⟩ := Option.bind_eq_some_iff.mp descends
      obtain ⟨-, ⟨skipped, rfl⟩ | ⟨rfl, rfl⟩ | ⟨component, down, rfl⟩⟩ := follow_cases here
      · rw [descend?_skip skipped] at step
        cases step
        exact ih followed descends
      · obtain rfl | ⟨rest, last, rfl⟩ := List.eq_nil_or_concat' rest
        · cases step
        · rw [List.length_append, List.length_singleton, descend?_up] at step
          cases step
          rw [← List.append_assoc, List.dropLast_concat] at followed
          exact ih followed descends
      · rw [descend?_component component down] at step
        cases step
        rw [List.append_assoc] at followed
        exact ih followed (by rwa [List.length_append])

def start (tree : FileTree) (path : String) : List String :=
  if isAbsolute path then [] else tree.home

theorem locate_eq_ok {path : String} : tree.locate path = .ok place ↔
    path ≠ "" ∧ '\x00' ∉ path.toList ∧ path.utf8ByteSize ≤ maxPathBytes ∧
      (Path.pieces path).foldlM tree.follow (tree.start path) = .ok place := by
  unfold locate start
  split
  · next empty => simp [String.isEmpty_iff.mp empty]
  · next filled =>
      have named : path ≠ "" := mt String.isEmpty_iff.mpr filled
      split
      · next textual =>
          have inside : '\x00' ∈ path.toList := by simpa using textual
          simp [inside]
      · next textual =>
          have free : '\x00' ∉ path.toList := by simpa using textual
          split
          · next long => simp [Nat.not_le.mpr long]
          · next short => simp [named, free, Nat.not_lt.mp short]

def placeOf (tree : FileTree) (root : String) : Except FileError (List String) :=
  if root = "" then .ok tree.home else tree.locate root

theorem start_append (filled : root ≠ "") (more : String) :
    tree.start (root ++ more) = tree.start root := by
  have same : isAbsolute (root ++ more) = isAbsolute root := by
    unfold isAbsolute
    rw [String.toList_append, List.head?_append_of_ne_nil _ (by simpa using filled)]
  rw [start, start, same]

theorem exists_join (filled : root ≠ "") (relative : isAbsolute name = false) :
    ∃ stem more, join root name = root ++ more ∧ join root name = stem ++ "/" ++ name ∧
      (root = stem ∨ root = stem ++ "/") := by
  have named : (isAbsolute name || root.isEmpty) = false := by simp [relative, filled]
  rw [join, named, if_neg Bool.false_ne_true]
  split
  · next slash =>
      obtain ⟨stem, ends⟩ := List.getLast?_eq_some_iff.mp slash
      have spelled : root = String.ofList stem ++ "/" := by simp [← String.toList_inj, ends]
      exact ⟨String.ofList stem, name, rfl, by rw [← spelled], .inr spelled⟩
  · exact ⟨root, "/" ++ name, String.append_assoc .., rfl, .inl rfl⟩

theorem exists_placeOf_of_join (stays : StaysBelow name)
    (located : tree.locate (join root name) = .ok place) :
    ∃ base, tree.placeOf root = .ok base ∧ base <+: place := by
  obtain ⟨relative, descends⟩ := stays
  obtain ⟨depth, descends⟩ := Option.isSome_iff_exists.mp descends
  obtain ⟨-, textual, short, followed⟩ := locate_eq_ok.mp located
  have within {base : List String}
      (followed : (Path.pieces name).foldlM tree.follow base = .ok place) : base <+: place := by
    rw [← List.append_nil base] at followed
    obtain ⟨more, rfl, -⟩ := exists_of_foldlM_follow followed descends
    exact List.prefix_append ..
  unfold placeOf
  split
  · next here =>
      have same : join root name = name := by simp [join, here]
      rw [same, start, relative] at followed
      exact ⟨tree.home, rfl, within followed⟩
  · next filled =>
      obtain ⟨stem, more, longer, spelled, same⟩ := exists_join filled relative
      rw [longer] at textual short
      rw [String.toList_append, List.mem_append, not_or] at textual
      rw [String.utf8ByteSize_append] at short
      rw [longer, start_append filled, ← longer, spelled, pieces_slash,
        List.foldlM_append] at followed
      obtain ⟨base, before, behind⟩ := bind_eq_ok.mp followed
      refine ⟨base, locate_eq_ok.mpr ⟨filled, textual.1, by omega, ?_⟩, within behind⟩
      obtain rfl | rfl := same
      · exact before
      · have directory := isDirectory_of_foldlM (pieces_ne_nil name) behind
        rw [← String.append_empty (s := stem ++ "/"), pieces_slash, String.append_empty,
          List.foldlM_append, before, ok_bind, pieces_eq_singleton List.not_mem_nil,
          List.foldlM_cons, follow_empty directory]
        rfl

end Stencil.FileTree
