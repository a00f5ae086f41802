import Stencil.Scope.Fresh

/-!
Fresh names are new. A base with a number determines both, as long as the base does not end in a
digit, so a name that has been handed out is not handed out again.
-/

namespace Stencil

namespace Table

variable {α : Type}

theorem get?_insert_of_ne {name other : String} (value : α) (table : Table α)
    (distinct : other ≠ name) : (table.insert name value).get? other = table.get? other := by
  have miss : (other == name) = false := by simpa using distinct
  induction table with
  | nil => simp [insert, get?, List.lookup_cons, miss]
  | cons entry rest ih =>
      obtain ⟨key, old⟩ := entry
      simp only [insert]
      split
      · simp [get?, List.lookup_cons, miss]
      · split
        · next same => subst same; simp [get?, List.lookup_cons, miss]
        · simp only [get?, List.lookup_cons] at ih ⊢
          rw [ih]

end Table

namespace FreshNames

def numbered (base : String) (count : Nat) : String :=
  if count = 0 then base else base ++ toString count

def count (names : FreshNames) (base : String) : Nat := (names.counts.get? base).getD 0

def PlainBase (base : String) : Prop := base.toList.getLast?.any Char.isDigit = false

def Taken (names : FreshNames) (name : String) : Prop :=
  ∃ base used, PlainBase base ∧ used < names.count base ∧ name = numbered base used

theorem fresh_name (names : FreshNames) (base : String) :
    (names.fresh base).1 = numbered base (names.count base) := rfl

theorem count_fresh_self (names : FreshNames) (base : String) :
    (names.fresh base).2.count base = names.count base + 1 := by
  simp [fresh, count, Table.get?_insert_self]

theorem count_fresh_of_ne {base other : String} (names : FreshNames) (distinct : other ≠ base) :
    (names.fresh base).2.count other = names.count other := by
  simp [fresh, count, Table.get?_insert_of_ne _ _ distinct]

theorem count_le_fresh (names : FreshNames) (base other : String) :
    names.count other ≤ (names.fresh base).2.count other := by
  by_cases same : other = base
  · subst same
    rw [count_fresh_self]
    omega
  · exact Nat.le_of_eq (count_fresh_of_ne names same).symm

def suffix (used : Nat) : List Char := if used = 0 then [] else Nat.toDigits 10 used

theorem toList_numbered (base : String) (used : Nat) :
    (numbered base used).toList = base.toList ++ suffix used := by
  unfold numbered suffix
  split <;> simp

theorem isDigit_of_mem_suffix {used : Nat} {c : Char} (member : c ∈ suffix used) :
    c.isDigit = true := by
  unfold suffix at member
  split at member
  · cases member
  · exact Nat.isDigit_of_mem_toDigits (by decide) (by decide) member

theorem ofDigitChars_suffix (used : Nat) : Nat.ofDigitChars 10 (suffix used) 0 = used := by
  unfold suffix
  split
  · next zero => simp [zero]
  · exact Nat.ofDigitChars_ten_toDigits

theorem suffix_injective {used other : Nat} (same : suffix used = suffix other) :
    used = other := by
  have number := congrArg (fun digits => Nat.ofDigitChars 10 digits 0) same
  simpa only [ofDigitChars_suffix] using number

theorem takeWhile_reverse_numbered {base : String} (plain : PlainBase base) (used : Nat) :
    (numbered base used).toList.reverse.takeWhile Char.isDigit = (suffix used).reverse := by
  have digits : ∀ c ∈ (suffix used).reverse, c.isDigit = true := by
    intro c member
    exact isDigit_of_mem_suffix (List.mem_reverse.mp member)
  have stop : base.toList.reverse.takeWhile Char.isDigit = [] := by
    cases reversed : base.toList.reverse with
    | nil => rfl
    | cons last earlier =>
        have ends : base.toList.getLast? = some last := by
          rw [← List.head?_reverse, reversed]
          rfl
        have letter : last.isDigit = false := by simpa [PlainBase, ends] using plain
        simp [letter]
  rw [toList_numbered, List.reverse_append, List.takeWhile_append_of_pos digits, stop,
    List.append_nil]

theorem numbered_injective {base other : String} {used count : Nat} (plain : PlainBase base)
    (plainOther : PlainBase other) (same : numbered base used = numbered other count) :
    base = other ∧ used = count := by
  -- Plain bases do not end in a digit, so the digits at the end are those of the number.
  have digits : suffix used = suffix count := by
    apply List.reverse_inj.mp
    rw [← takeWhile_reverse_numbered plain, ← takeWhile_reverse_numbered plainOther, same]
  have letters := congrArg String.toList same
  rw [toList_numbered, toList_numbered, digits] at letters
  exact ⟨String.toList_inj.mp (List.append_cancel_right letters), suffix_injective digits⟩

theorem taken_fresh_of_taken {names : FreshNames} {name : String} (taken : names.Taken name)
    (base : String) : (names.fresh base).2.Taken name := by
  obtain ⟨given, used, plain, bound, rfl⟩ := taken
  exact ⟨given, used, plain, Nat.lt_of_lt_of_le bound (count_le_fresh names base given), rfl⟩

theorem taken_fresh {base : String} (plain : PlainBase base) (names : FreshNames) :
    (names.fresh base).2.Taken (names.fresh base).1 :=
  ⟨base, names.count base, plain, by rw [count_fresh_self]; omega, fresh_name names base⟩

theorem not_taken_fresh {base : String} (plain : PlainBase base) (names : FreshNames) :
    ¬ names.Taken (names.fresh base).1 := by
  rintro ⟨given, used, plainGiven, bound, same⟩
  rw [fresh_name] at same
  obtain ⟨rfl, rfl⟩ := numbered_injective plain plainGiven same
  omega

def Extends (names earlier : FreshNames) : Prop := ∀ name, earlier.Taken name → names.Taken name

theorem Extends.refl (names : FreshNames) : names.Extends names := fun _ taken => taken

theorem Extends.trans {names middle earlier : FreshNames} (later : names.Extends middle)
    (sooner : middle.Extends earlier) : names.Extends earlier :=
  fun name taken => later name (sooner name taken)

theorem extends_fresh (names : FreshNames) (base : String) :
    (names.fresh base).2.Extends names :=
  fun _ taken => taken_fresh_of_taken taken base

theorem plainBase_element : PlainBase "element" := rfl

theorem plainBase_index : PlainBase "index" := rfl

theorem plainBase_model : PlainBase "model" := rfl

def LoopNames (names : FreshNames) (element index : String) (after : FreshNames) : Prop :=
  ∃ middle, names.fresh "element" = (element, middle) ∧ middle.fresh "index" = (index, after)

theorem extends_loop {names after : FreshNames} {element index : String}
    (loop : names.LoopNames element index after) : after.Extends names := by
  obtain ⟨middle, first, second⟩ := loop
  have inner := extends_fresh names "element"
  have outer := extends_fresh middle "index"
  rw [first] at inner
  rw [second] at outer
  exact outer.trans inner

theorem taken_root {name : String} (member : name ∈ rootNames) : root.Taken name := by
  simp only [rootNames, List.mem_cons, List.not_mem_nil, or_false] at member
  rcases member with rfl | rfl | rfl
  · exact ⟨"data", 0, rfl, by decide +kernel, rfl⟩
  · exact ⟨"context", 0, rfl, by decide +kernel, rfl⟩
  · exact ⟨"template", 0, rfl, by decide +kernel, rfl⟩

def Covers {α : Type} (names : FreshNames) (bound : List (String × α)) : Prop :=
  ∀ entry ∈ bound, names.Taken entry.1

def Keeps {α : Type} (later earlier : List (String × α)) : Prop :=
  ∀ name value, earlier.lookup name = some value → later.lookup name = some value

namespace Covers

variable {α : Type} {names after : FreshNames} {bound : List (String × α)} {base : String}

theorem later (covers : names.Covers bound) (more : after.Extends names) : after.Covers bound :=
  fun entry member => more _ (covers entry member)

theorem fresh (covers : names.Covers bound) (plain : PlainBase base) (value : α) :
    (names.fresh base).2.Covers (((names.fresh base).1, value) :: bound) := by
  intro entry member
  rcases List.mem_cons.mp member with rfl | further
  · exact taken_fresh plain names
  · exact taken_fresh_of_taken (covers entry further) base

theorem keeps_fresh (covers : names.Covers bound) (plain : PlainBase base) (value : α) :
    Keeps (((names.fresh base).1, value) :: bound) bound := by
  intro name known hit
  have member : (name, known) ∈ bound := by
    obtain ⟨before, rest, rfl, -⟩ := List.lookup_eq_some_iff.mp hit
    simp
  have distinct : (name == (names.fresh base).1) = false := by
    simp only [beq_eq_false_iff_ne]
    intro same
    exact not_taken_fresh plain names (same ▸ covers _ member)
  rwa [List.lookup_cons, distinct]

theorem loop {element index : String} (covers : names.Covers bound)
    (loop : names.LoopNames element index after) (item state : α) :
    after.Covers ((index, state) :: (element, item) :: bound) ∧
      Keeps ((index, state) :: (element, item) :: bound) bound ∧
      List.lookup element ((index, state) :: (element, item) :: bound) = some item := by
  obtain ⟨middle, first, second⟩ := loop
  have outer := covers.fresh plainBase_element item
  have keepsOuter := covers.keeps_fresh plainBase_element item
  rw [first] at outer keepsOuter
  have inner := outer.fresh plainBase_index state
  have keepsInner := outer.keeps_fresh plainBase_index state
  rw [second] at inner keepsInner
  exact ⟨inner, fun name known hit => keepsInner _ _ (keepsOuter name known hit),
    keepsInner _ _ (by simp)⟩

end Covers

end FreshNames

end Stencil
