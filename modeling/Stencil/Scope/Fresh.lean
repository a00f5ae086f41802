import Stencil.Table

/-!
Fresh variable names. A nested section starts from the counts of the section around it, so its
names differ from all that are in scope.
-/

namespace Stencil

/-- How often each base name has been used. -/
structure FreshNames where
  counts : Table Nat
  deriving DecidableEq, Repr

namespace FreshNames

def empty : FreshNames := ⟨[]⟩

/-- A name that has not been used: the base itself, and after it the base with a number. -/
def fresh (names : FreshNames) (base : String) : String × FreshNames :=
  let count := (names.counts.get? base).getD 0
  let name := if count = 0 then base else base ++ toString count
  (name, ⟨names.counts.insert base (count + 1)⟩)

def rootNames : List String := ["data", "context", "template"]

def root : FreshNames := rootNames.foldl (fun names name => (names.fresh name).2) empty

end FreshNames

end Stencil
