/-!
Cutting text at separators, at line feeds and at the first occurrence of a mark.
-/

namespace Stencil.Text

def splitOn (separator : Char) : List Char → List (List Char)
  | [] => [[]]
  | c :: rest =>
      if c = separator then [] :: splitOn separator rest
      else
        match splitOn separator rest with
        | [] => [[c]]
        | piece :: more => (c :: piece) :: more

def lines (cs : List Char) : List (List Char) := splitOn '\n' cs

/-- The lines with their line feeds; a last line without characters is none. -/
def keptLines : List Char → List (List Char)
  | [] => []
  | c :: rest =>
      if c = '\n' then [c] :: keptLines rest
      else
        match keptLines rest with
        | [] => [[c]]
        | line :: more => (c :: line) :: more

def dropReturn (line : List Char) : List Char :=
  if line.getLast? = some '\r' then line.dropLast else line

def after? : List Char → List Char → Option (List Char)
  | [], cs => some cs
  | _ :: _, [] => none
  | m :: mark, c :: cs => if m = c then after? mark cs else none

def cutAt? (mark : List Char) : List Char → Option (List Char × List Char)
  | [] => none
  | c :: rest =>
      match after? mark (c :: rest) with
      | some after => some ([], after)
      | none => (cutAt? mark rest).map fun (before, after) => (c :: before, after)

theorem splitOn_ne_nil (separator : Char) (cs : List Char) : splitOn separator cs ≠ [] := by
  cases cs with
  | nil => simp [splitOn]
  | cons c rest =>
      simp only [splitOn]
      repeat' split
      all_goals simp

theorem flatten_keptLines (cs : List Char) : (keptLines cs).flatten = cs := by
  induction cs with
  | nil => rfl
  | cons c rest ih =>
      simp only [keptLines]
      split
      · simp [ih]
      · split
        · next empty => rw [← ih, empty]; rfl
        · next line more found => rw [found] at ih; simpa using ih

theorem append_of_after? {mark cs rest : List Char} (found : after? mark cs = some rest) :
    mark ++ rest = cs := by
  induction mark generalizing cs with
  | nil => simpa [after?] using found.symm
  | cons m mark ih =>
      cases cs with
      | nil => simp [after?] at found
      | cons c cs =>
          simp only [after?, Option.ite_none_right_eq_some] at found
          obtain ⟨rfl, tail⟩ := found
          simpa using ih tail

theorem append_of_cutAt? {mark cs before after : List Char}
    (cut : cutAt? mark cs = some (before, after)) : before ++ mark ++ after = cs := by
  induction cs generalizing before with
  | nil => simp [cutAt?] at cut
  | cons c rest ih =>
      simp only [cutAt?] at cut
      split at cut
      · next found =>
          obtain ⟨rfl, rfl⟩ : [] = before ∧ _ = after := by simpa using cut
          simpa using append_of_after? found
      · simp only [Option.map_eq_some_iff, Prod.exists, Prod.mk.injEq] at cut
        obtain ⟨left, right, tail, rfl, rfl⟩ := cut
        simpa using ih tail

end Stencil.Text
