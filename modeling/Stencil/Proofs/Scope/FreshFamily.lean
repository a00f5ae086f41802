import Stencil.Proofs.Scope.Fresh

/-!
Families of environments, in which each environment but the first starts with the counts that
another has at the time. What carries the proof is that all names that are visible in an environment
are taken in it. Main statement: the names visible in an environment differ from one another, and
what is introduced in an environment changes no name in those that do not come from it.
-/

namespace Stencil

namespace FreshNames

/-- What may be asked of environments, which are numbered in the order in which they are made. -/
inductive Request where
  | introduce (env : Nat) (base : String)
  | child (parent : Nat)
  deriving DecidableEq

def Request.IsPlain : Request → Prop
  | .introduce _ base => PlainBase base
  | .child _ => True

instance : DecidablePred Request.IsPlain
  | .introduce _ _ => inferInstanceAs (Decidable (_ = false))
  | .child _ => inferInstanceAs (Decidable True)

inductive LogEntry where
  | introduced (env : Nat) (name : String)
  | made (parent child : Nat)
  deriving DecidableEq

def returned (env : Nat) : List LogEntry → List String
  | [] => []
  | .introduced other name :: earlier =>
      if other = env then name :: returned env earlier else returned env earlier
  | .made _ _ :: earlier => returned env earlier

/-- The names that an environment has from those around it: what was returned in its parent before
it was made, and what the parent has from those around it in turn. The first environment has the
root variables. -/
def inherited (env : Nat) : List LogEntry → List String
  | [] => rootNames
  | .introduced _ _ :: earlier => inherited env earlier
  | .made parent child :: earlier =>
      if child = env then returned parent earlier ++ inherited parent earlier
      else inherited env earlier

def visible (env : Nat) (log : List LogEntry) : List String := returned env log ++ inherited env log

theorem visible_introduced (env place : Nat) (name : String) (log : List LogEntry) :
    visible place (.introduced env name :: log) =
      if env = place then name :: visible place log else visible place log := by
  simp only [visible, returned, inherited]
  split
  · rfl
  · rfl

theorem visible_of_ne {parent child env : Nat} (distinct : child ≠ env) (log : List LogEntry) :
    visible env (.made parent child :: log) = visible env log := by
  simp only [visible, returned, inherited, if_neg distinct]

theorem visible_child {child : Nat} {log : List LogEntry} (unused : returned child log = [])
    (parent : Nat) : visible child (.made parent child :: log) = visible parent log := by
  simp only [visible, returned, inherited, unused, if_true, List.nil_append]

/-- That an environment is another or comes from it, directly or through further ones. -/
inductive Descends (log : List LogEntry) (env : Nat) : Nat → Prop where
  | self : Descends log env env
  | made {parent child : Nat} :
      Descends log env parent → .made parent child ∈ log → Descends log env child

theorem Descends.earlier {log : List LogEntry} {entry : LogEntry} {env other : Nat}
    (descends : Descends log env other) : Descends (entry :: log) env other := by
  induction descends with
  | self => exact .self
  | made before member ih => exact .made ih (List.mem_cons_of_mem entry member)

/-- Environments with what has been done, latest first. -/
structure Family where
  envs : List FreshNames
  log : List LogEntry
  deriving DecidableEq

namespace Family

def root : Family := ⟨[FreshNames.root], []⟩

def introduced (family : Family) (env : Nat) (base : String) (names : FreshNames) : Family :=
  ⟨family.envs.set env (names.fresh base).2, .introduced env (names.fresh base).1 :: family.log⟩

def made (family : Family) (parent : Nat) (names : FreshNames) : Family :=
  ⟨family.envs ++ [names], .made parent family.envs.length :: family.log⟩

def next? (family : Family) : Request → Option Family
  | .introduce env base => family.envs[env]?.map (family.introduced env base)
  | .child parent => family.envs[parent]?.map (family.made parent)

def after? (family : Family) (requests : List Request) : Option Family :=
  requests.foldlM next? family

variable {family later other : Family} {request : Request} {requests : List Request}
  {env parent child sibling : Nat} {base : String} {names counts : FreshNames}

theorem next?_cases (step : family.next? request = some later) :
    (∃ env base names, request = .introduce env base ∧ family.envs[env]? = some names ∧
      later = family.introduced env base names) ∨
    ∃ parent names, request = .child parent ∧ family.envs[parent]? = some names ∧
      later = family.made parent names := by
  cases request with
  | introduce env base =>
      obtain ⟨names, there, rfl⟩ := Option.map_eq_some_iff.mp step
      exact .inl ⟨env, base, names, rfl, there, rfl⟩
  | child parent =>
      obtain ⟨names, there, rfl⟩ := Option.map_eq_some_iff.mp step
      exact .inr ⟨parent, names, rfl, there, rfl⟩

theorem lt_of_getElem? (there : family.envs[env]? = some names) : env < family.envs.length :=
  (List.getElem?_eq_some_iff.mp there).1

theorem getElem?_introduced (there : family.envs[env]? = some names) (place : Nat) :
    (family.introduced env base names).envs[place]? =
      if env = place then some (names.fresh base).2 else family.envs[place]? := by
  rw [introduced, List.getElem?_set]
  simp only [lt_of_getElem? there, if_true]

theorem getElem?_made (parent : Nat) (names : FreshNames) (place : Nat) :
    (family.made parent names).envs[place]? =
      if place = family.envs.length then some names else family.envs[place]? := by
  rw [made]
  split
  · next new =>
      rw [new, List.getElem?_concat_length]
  · next other =>
      rcases Nat.lt_or_gt_of_ne other with below | above
      · rw [List.getElem?_append_left below]
      · rw [List.getElem?_eq_none (Nat.le_of_lt above), List.getElem?_eq_none]
        rw [List.length_append, List.length_singleton]
        omega

theorem after?_cons : family.after? (request :: requests) = some later ↔
    ∃ middle, family.next? request = some middle ∧ middle.after? requests = some later := by
  rw [after?, List.foldlM_cons, Option.bind_eq_bind, Option.bind_eq_some_iff]
  rfl

theorem after?_keeps {Holds : Family → Prop}
    (keeps : ∀ family later request, request ∈ requests → Holds family →
      family.next? request = some later → Holds later)
    (start : Holds family) (run : family.after? requests = some later) : Holds later := by
  induction requests generalizing family with
  | nil =>
      obtain rfl := Option.some.inj run
      exact start
  | cons request rest ih =>
      obtain ⟨middle, first, behind⟩ := after?_cons.mp run
      apply ih
      · intro family later further member
        exact keeps family later further (List.mem_cons_of_mem request member)
      · exact keeps family middle request List.mem_cons_self start first
      · exact behind

structure IsNumbered (family : Family) : Prop where
  older : ∀ parent child, .made parent child ∈ family.log →
    parent < child ∧ child < family.envs.length
  only : ∀ parent other child, .made parent child ∈ family.log → .made other child ∈ family.log →
    parent = other
  unused : ∀ env, family.envs.length ≤ env → returned env family.log = []

theorem isNumbered_root : root.IsNumbered :=
  ⟨fun _ _ member => absurd member List.not_mem_nil,
    fun _ _ _ member => absurd member List.not_mem_nil, fun _ _ => rfl⟩

theorem IsNumbered.introduced (numbered : family.IsNumbered)
    (there : family.envs[env]? = some names) (base : String) :
    (family.introduced env base names).IsNumbered := by
  refine ⟨?older, ?only, ?unused⟩
  case older =>
    intro parent child member
    simp only [Family.introduced, List.mem_cons, reduceCtorEq, false_or, List.length_set]
      at member ⊢
    exact numbered.older parent child member
  case only =>
    intro parent other child member also
    simp only [Family.introduced, List.mem_cons, reduceCtorEq, false_or] at member also
    exact numbered.only parent other child member also
  case unused =>
    intro place beyond
    rw [Family.introduced, List.length_set] at beyond
    have distinct : env ≠ place := Nat.ne_of_lt (Nat.lt_of_lt_of_le (lt_of_getElem? there) beyond)
    simpa only [Family.introduced, returned, if_neg distinct] using numbered.unused place beyond

theorem IsNumbered.made (numbered : family.IsNumbered)
    (there : family.envs[parent]? = some names) : (family.made parent names).IsNumbered := by
  have bound := lt_of_getElem? there
  refine ⟨?older, ?only, ?unused⟩
  case older =>
    intro outer child member
    simp only [Family.made, List.mem_cons, LogEntry.made.injEq, List.length_append,
      List.length_singleton] at member ⊢
    rcases member with ⟨rfl, rfl⟩ | sooner
    · omega
    · have order := numbered.older outer child sooner
      omega
  case only =>
    intro outer other child member also
    simp only [Family.made, List.mem_cons, LogEntry.made.injEq] at member also
    rcases member with ⟨rfl, rfl⟩ | sooner
    · rcases also with ⟨rfl, -⟩ | sooner
      · rfl
      · exact absurd (numbered.older _ _ sooner).2 (Nat.lt_irrefl _)
    · rcases also with ⟨rfl, rfl⟩ | further
      · exact absurd (numbered.older _ _ sooner).2 (Nat.lt_irrefl _)
      · exact numbered.only outer other child sooner further
  case unused =>
    intro env beyond
    rw [Family.made, List.length_append, List.length_singleton] at beyond
    exact numbered.unused env (Nat.le_of_succ_le beyond)

theorem IsNumbered.next (numbered : family.IsNumbered)
    (step : family.next? request = some later) : later.IsNumbered := by
  rcases next?_cases step with
    ⟨env, base, names, rfl, there, rfl⟩ | ⟨parent, names, rfl, there, rfl⟩
  · exact numbered.introduced there base
  · exact numbered.made there

/-- That the names visible in every environment are taken in it, and differ from one another. -/
def IsDistinct (family : Family) : Prop :=
  ∀ env names, family.envs[env]? = some names →
    (visible env family.log).Nodup ∧ ∀ name ∈ visible env family.log, names.Taken name

theorem isDistinct_root : root.IsDistinct := by
  intro env names there
  cases env with
  | zero =>
      obtain rfl := Option.some.inj there
      exact ⟨by decide, fun name member => taken_root member⟩
  | succ later => cases there

theorem IsDistinct.introduced (distinct : family.IsDistinct) (plain : PlainBase base)
    (there : family.envs[env]? = some names) : (family.introduced env base names).IsDistinct := by
  intro other counts here
  rw [getElem?_introduced there] at here
  by_cases same : env = other
  · subst same
    rw [if_pos rfl, Option.some.injEq] at here
    subst here
    obtain ⟨differ, taken⟩ := distinct env names there
    simp only [Family.introduced, visible_introduced, if_true]
    constructor
    · apply List.nodup_cons.mpr ⟨?_, differ⟩
      intro member
      exact not_taken_fresh plain names (taken _ member)
    · intro name member
      rcases List.mem_cons.mp member with rfl | sooner
      · exact taken_fresh plain names
      · exact taken_fresh_of_taken (taken name sooner) base
  · rw [if_neg same] at here
    simpa only [Family.introduced, visible_introduced, if_neg same] using distinct other counts here

theorem IsDistinct.made (distinct : family.IsDistinct) (numbered : family.IsNumbered)
    (there : family.envs[parent]? = some names) : (family.made parent names).IsDistinct := by
  intro other counts here
  rw [getElem?_made] at here
  by_cases same : other = family.envs.length
  · subst same
    rw [if_pos rfl, Option.some.injEq] at here
    subst here
    have unused := numbered.unused family.envs.length (Nat.le_refl _)
    simpa only [Family.made, visible_child unused] using distinct parent names there
  · rw [if_neg same] at here
    simpa only [Family.made, visible_of_ne (Ne.symm same)] using distinct other counts here

theorem IsDistinct.next (distinct : family.IsDistinct) (numbered : family.IsNumbered)
    (plain : request.IsPlain)
    (step : family.next? request = some later) : later.IsDistinct := by
  rcases next?_cases step with
    ⟨env, base, names, rfl, there, rfl⟩ | ⟨parent, names, rfl, there, rfl⟩
  · exact distinct.introduced plain there
  · exact distinct.made numbered there

theorem IsNumbered.le_of_descends (numbered : family.IsNumbered)
    (descends : Descends family.log parent child) : parent ≤ child := by
  induction descends with
  | self => exact Nat.le_refl parent
  | made before member ih =>
      have order := numbered.older _ _ member
      omega

theorem IsNumbered.not_descends_parent (numbered : family.IsNumbered)
    (made : .made parent child ∈ family.log) : ¬ Descends family.log child parent := by
  intro descends
  have above := numbered.le_of_descends descends
  have order := numbered.older parent child made
  omega

theorem IsNumbered.not_descends_sibling (numbered : family.IsNumbered)
    (made : .made parent child ∈ family.log) (also : .made parent sibling ∈ family.log)
    (distinct : sibling ≠ child) : ¬ Descends family.log child sibling := by
  intro descends
  cases descends with
  | self => exact distinct rfl
  | made before member =>
      obtain rfl := numbered.only _ _ _ also member
      exact numbered.not_descends_parent made before

/-- That two families have as many environments, and agree on those that do not come from a given
one. -/
structure Agrees (env : Nat) (family other : Family) : Prop where
  length : other.envs.length = family.envs.length
  same : ∀ outside, ¬ Descends family.log env outside →
    other.envs[outside]? = family.envs[outside]? ∧
      returned outside other.log = returned outside family.log

theorem agrees_introduce (step : family.next? (.introduce env base) = some later) :
    Agrees env family later := by
  obtain ⟨names, there, rfl⟩ := Option.map_eq_some_iff.mp step
  constructor
  · exact List.length_set
  · intro outside apart
    have distinct : env ≠ outside := by
      rintro rfl
      exact apart .self
    rw [getElem?_introduced there]
    exact ⟨if_neg distinct, if_neg distinct⟩

theorem Agrees.exists_getElem? (agrees : Agrees env family other) {place : Nat}
    (there : family.envs[place]? = some names) : ∃ counts, other.envs[place]? = some counts := by
  have bound := lt_of_getElem? there
  rw [← agrees.length] at bound
  exact ⟨_, List.getElem?_eq_getElem bound⟩

theorem Agrees.counts_eq (agrees : Agrees env family other) {place : Nat}
    (there : family.envs[place]? = some names) (also : other.envs[place]? = some counts)
    (apart : ¬ Descends family.log env place) : counts = names := by
  apply Option.some.inj
  calc some counts = other.envs[place]? := also.symm
    _ = family.envs[place]? := (agrees.same place apart).1
    _ = some names := there

theorem Agrees.introduced (agrees : Agrees env family other) {place : Nat}
    (there : family.envs[place]? = some names) (also : other.envs[place]? = some counts) :
    Agrees env (family.introduced place base names) (other.introduced place base counts) := by
  constructor
  · simpa only [Family.introduced, List.length_set] using agrees.length
  · intro outside apart
    have before : ¬ Descends family.log env outside := fun descends => apart descends.earlier
    obtain ⟨sameCounts, sameNames⟩ := agrees.same outside before
    rw [getElem?_introduced there, getElem?_introduced also]
    by_cases here : place = outside
    · subst here
      simp only [agrees.counts_eq there also before, Family.introduced, returned, if_true,
        sameNames, and_self]
    · simp only [Family.introduced, returned, if_neg here]
      exact ⟨sameCounts, sameNames⟩

theorem Agrees.made (agrees : Agrees env family other)
    (there : family.envs[parent]? = some names) (also : other.envs[parent]? = some counts) :
    Agrees env (family.made parent names) (other.made parent counts) := by
  constructor
  · simp only [Family.made, List.length_append, List.length_singleton, agrees.length]
  · intro outside apart
    have before : ¬ Descends family.log env outside := fun descends => apart descends.earlier
    obtain ⟨sameCounts, sameNames⟩ := agrees.same outside before
    refine ⟨?_, sameNames⟩
    rw [getElem?_made, getElem?_made, agrees.length]
    split
    · next new =>
        subst new
        -- A new environment that does not come from the given one has a parent that does not.
        have origin : ¬ Descends family.log env parent := fun descends =>
          apart (.made descends.earlier List.mem_cons_self)
        rw [agrees.counts_eq there also origin]
    · exact sameCounts

theorem Agrees.next (agrees : Agrees env family other)
    (step : family.next? request = some later) :
    ∃ further, other.next? request = some further ∧ Agrees env later further := by
  rcases next?_cases step with
    ⟨place, base, names, rfl, there, rfl⟩ | ⟨parent, names, rfl, there, rfl⟩
  · obtain ⟨counts, also⟩ := agrees.exists_getElem? there
    exact ⟨_, congrArg (Option.map _) also, agrees.introduced there also⟩
  · obtain ⟨counts, also⟩ := agrees.exists_getElem? there
    exact ⟨_, congrArg (Option.map _) also, agrees.made there also⟩

theorem Agrees.after (agrees : Agrees env family other)
    (run : family.after? requests = some later) :
    ∃ further, other.after? requests = some further ∧ Agrees env later further := by
  induction requests generalizing family other with
  | nil =>
      obtain rfl := Option.some.inj run
      exact ⟨other, rfl, agrees⟩
  | cons request rest ih =>
      obtain ⟨middle, first, behind⟩ := after?_cons.mp run
      obtain ⟨next, also, still⟩ := agrees.next first
      obtain ⟨further, reached, last⟩ := ih still behind
      exact ⟨further, after?_cons.mpr ⟨next, also, reached⟩, last⟩

/-- In every environment that is reached from the first one, the names returned in it, those that
were returned in the environments around it before the one that leads to it was made, and the root
variables differ from one another. One more name in an environment changes no name that is
returned before or after in an environment that does not come from it, as its parent and its
siblings do not. -/
theorem after?_distinct (plain : ∀ request ∈ requests, request.IsPlain)
    (run : root.after? requests = some family) :
    (∀ env < family.envs.length,
        (returned env family.log ++ inherited env family.log).Nodup) ∧
      ∀ child base changed more last, family.next? (.introduce child base) = some changed →
        family.after? more = some last →
        ∃ other, changed.after? more = some other ∧
          (∀ env, ¬ Descends last.log child env →
            returned env other.log = returned env last.log) ∧
          ∀ parent, .made parent child ∈ last.log → ¬ Descends last.log child parent ∧
            ∀ sibling, .made parent sibling ∈ last.log → sibling ≠ child →
              ¬ Descends last.log child sibling := by
  have whole : family.IsNumbered ∧ family.IsDistinct := by
    apply after?_keeps ?_ ⟨isNumbered_root, isDistinct_root⟩ run
    rintro family later request member ⟨numbered, distinct⟩ step
    exact ⟨numbered.next step, distinct.next numbered (plain request member) step⟩
  obtain ⟨numbered, distinct⟩ := whole
  constructor
  · intro env bound
    exact (distinct env _ (List.getElem?_eq_getElem bound)).1
  · intro child base changed more last introduced behind
    obtain ⟨other, reached, agrees⟩ := (agrees_introduce introduced).after behind
    have still : last.IsNumbered := by
      apply after?_keeps ?_ numbered behind
      intro family later request member holds step
      exact holds.next step
    refine ⟨other, reached, fun env apart => (agrees.same env apart).2, ?_⟩
    intro parent made
    exact ⟨still.not_descends_parent made,
      fun sibling also differs => still.not_descends_sibling made also differs⟩

/-- Two children of the first environment. What the first child returns besides shows in neither of
the others. -/
theorem after?_distinct_siblings :
    let requests : List Request := [.introduce 0 "element", .child 0, .child 0,
      .introduce 1 "element", .introduce 1 "data", .introduce 2 "index"]
    let more : List Request := [.introduce 0 "element", .introduce 1 "element",
      .introduce 2 "element"]
    let family := (root.after? requests).getD root
    let changed := (family.next? (.introduce 1 "element")).getD root
    let last := (family.after? more).getD root
    (∀ request ∈ requests, request.IsPlain) ∧ root.after? requests = some family ∧
      1 < family.envs.length ∧ (returned 1 family.log ++ inherited 1 family.log).Nodup ∧
      returned 1 family.log = ["data1", "element1"] ∧
      inherited 1 family.log = ["element", "data", "context", "template"] ∧
      family.next? (.introduce 1 "element") = some changed ∧ family.after? more = some last ∧
      .made 0 1 ∈ last.log ∧ .made 0 2 ∈ last.log ∧
      ∃ other, changed.after? more = some other ∧
        returned 0 other.log = ["element1", "element"] ∧
        returned 2 other.log = ["element1", "index"] := by
  intro requests more family changed last
  have plain : ∀ request ∈ requests, request.IsPlain := by decide
  have run : root.after? requests = some family := by decide +kernel
  have bound : 1 < family.envs.length := by decide +kernel
  have introduced : family.next? (.introduce 1 "element") = some changed := by decide +kernel
  have behind : family.after? more = some last := by decide +kernel
  have first : .made 0 1 ∈ last.log := by decide +kernel
  have second : .made 0 2 ∈ last.log := by decide +kernel
  obtain ⟨distinct, apart⟩ := after?_distinct plain run
  obtain ⟨other, reached, same, kin⟩ := apart 1 "element" changed more last introduced behind
  obtain ⟨parent, siblings⟩ := kin 0 first
  refine ⟨plain, run, bound, distinct 1 bound, by decide +kernel, by decide +kernel, introduced,
    behind, first, second, other, reached, ?_, ?_⟩
  · rw [same 0 parent]
    decide +kernel
  · rw [same 2 (siblings 2 second (by decide))]
    decide +kernel

end Family

end FreshNames

end Stencil
