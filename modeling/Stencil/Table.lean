/-!
Tables from names to values, kept in ascending order of the names.
-/

namespace Stencil

/-- Entries in strictly ascending order of their names. -/
abbrev Table (α : Type) := List (String × α)

namespace Table

variable {α : Type}

def get? (table : Table α) (name : String) : Option α := List.lookup name table

def insert (name : String) (value : α) : Table α → Table α
  | [] => [(name, value)]
  | (key, old) :: rest =>
      if name < key then (name, value) :: (key, old) :: rest
      else if name = key then (name, value) :: rest
      else (key, old) :: insert name value rest

def ofList (entries : List (String × α)) : Table α :=
  entries.foldl (fun table entry => insert entry.1 entry.2 table) []

theorem get?_insert_self (name : String) (value : α) (table : Table α) :
    (table.insert name value).get? name = some value := by
  induction table with
  | nil => simp [insert, get?]
  | cons entry rest ih =>
      obtain ⟨key, old⟩ := entry
      simp only [insert]
      split
      · simp [get?]
      · split
        · simp [get?]
        · next distinct =>
            simp only [get?, List.lookup_cons] at ih ⊢
            rw [show (name == key) = false from by simpa using distinct]
            exact ih

end Table

end Stencil
