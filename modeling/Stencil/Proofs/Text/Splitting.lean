import Stencil.Text.Lines

/-!
Texts cut at separators, and the pieces of texts that are put together.
-/

namespace Stencil.Text

variable {separator : Char} {cs piece : List Char}

theorem splitOn_eq (separator : Char) (cs : List Char) :
    splitOn separator cs = cs.splitOn separator := by
  induction cs with
  | nil => rw [List.splitOn_nil, splitOn]
  | cons c rest ih =>
      rw [List.splitOn_cons_eq_if_modifyHead, splitOn, ih]
      cases cut : rest.splitOn separator with
      | nil => exact absurd cut (List.splitOn_ne_nil separator rest)
      | cons piece more => simp [List.modifyHead_cons]

theorem eq_of_splitOn_eq_singleton (split : splitOn separator cs = [piece]) : piece = cs := by
  have joined : [separator].intercalate (cs.splitOn separator) = cs :=
    List.intercalate_splitOn separator
  rw [← splitOn_eq, split] at joined
  simpa using joined

theorem splitOn_eq_singleton (none : separator ∉ cs) : splitOn separator cs = [cs] := by
  rw [splitOn_eq, List.splitOn_eq_singleton none]

theorem splitOn_separator (front back : List Char) :
    splitOn separator (front ++ separator :: back) =
      splitOn separator front ++ splitOn separator back := by
  simp only [splitOn_eq, List.splitOn_append_cons_self]

theorem not_mem_of_mem_splitOn (member : piece ∈ splitOn separator cs) : separator ∉ piece := by
  induction cs generalizing piece with
  | nil => simp_all [splitOn]
  | cons c rest ih =>
      rw [splitOn] at member
      split at member
      · rcases List.mem_cons.mp member with rfl | later
        · exact List.not_mem_nil
        · exact ih later
      · next other =>
          cases cut : splitOn separator rest with
          | nil => exact absurd cut (splitOn_ne_nil separator rest)
          | cons first more =>
              rw [cut] at ih member
              rcases List.mem_cons.mp member with rfl | later
              · have within := ih (List.mem_cons_self ..)
                simp [Ne.symm other, within]
              · exact ih (List.mem_cons_of_mem _ later)

theorem exists_splitOn_append (separator : Char) (cs : List Char) :
    ∃ init last, splitOn separator cs = init ++ [last] ∧
      ∀ {back first rest}, splitOn separator back = first :: rest →
        splitOn separator (cs ++ back) = init ++ (last ++ first) :: rest := by
  induction cs with
  | nil => exact ⟨[], [], rfl, id⟩
  | cons c rest ih =>
      obtain ⟨init, last, cut, joined⟩ := ih
      by_cases separates : c = separator
      · refine ⟨[] :: init, last, ?_, fun split => ?_⟩
        · rw [splitOn, if_pos separates, cut, List.cons_append]
        · rw [List.cons_append, splitOn, if_pos separates, joined split, List.cons_append]
      · cases init with
        | nil =>
            refine ⟨[], c :: last, ?_, fun split => ?_⟩
            · rw [splitOn, if_neg separates, cut]
              rfl
            · rw [List.cons_append, splitOn, if_neg separates, joined split]
              rfl
        | cons piece init =>
            refine ⟨(c :: piece) :: init, last, ?_, fun split => ?_⟩
            · rw [splitOn, if_neg separates, cut]
              rfl
            · rw [List.cons_append, splitOn, if_neg separates, joined split]
              rfl

end Stencil.Text
