import Stencil.Render.ContextNode

/-!
Searches in nodes. What carries the proof is that what is found is put under all contents that the
search began with. Main statement: a search gives what the nearest node has that has anything, and
however many searches follow one another, all nodes found on the way answer later ones, the latest
first, and behind them the nodes that were there before.
-/

namespace Stencil

namespace NodeContent

def search? (contents : List NodeContent) (name : String) : Option Json :=
  contents.findSome? (·.child? name)

end NodeContent

namespace ContextNode

def chain (node : ContextNode) : List NodeContent := node.content :: node.around

theorem find?_eq_search? (node : ContextNode) (name : String) :
    node.find? name =
      (NodeContent.search? node.chain name).map fun value => ⟨.ofJson value, node.chain⟩ := by
  obtain ⟨content, around⟩ := node
  simp only [find?, chain, NodeContent.search?]
  -- Each content that is passed on the way out is put back below what is found further out.
  induction around generalizing content with
  | nil =>
      simp only [findFrom?, List.findSome?_cons, List.findSome?_nil]
      cases content.child? name <;> rfl
  | cons outer around ih =>
      simp only [findFrom?, List.findSome?_cons]
      cases content.child? name with
      | some value => rfl
      | none =>
          simp only [ih outer, List.findSome?_cons, Option.map_map]
          rfl

def within : List NodeContent → List ContextNode
  | [] => []
  | content :: around => ⟨content, around⟩ :: within around

/-- A node and the nodes around it, nearest first. -/
def lineage (node : ContextNode) : List ContextNode := within node.chain

/-- That searches lead from a node to another, each in what the one before it found. The nodes found
are listed, latest first. -/
inductive Searches (node : ContextNode) : List ContextNode → ContextNode → Prop where
  | start : Searches node [] node
  | next {earlier : List ContextNode} {latest found : ContextNode} {name : String} :
      Searches node earlier latest → latest.find? name = some found →
      Searches node (found :: earlier) found

variable {node found latest : ContextNode} {earlier : List ContextNode} {name : String}

theorem lineage_eq (node : ContextNode) :
    node.lineage = node :: (node.parent?.map lineage).getD [] := by
  obtain ⟨content, around⟩ := node
  cases around with
  | nil => rfl
  | cons outer further => rfl

theorem parent?_eq_some_iff : found.parent? = some node ↔ found.around = node.chain := by
  obtain ⟨content, around⟩ := found
  cases around with
  | nil => simp [parent?, chain]
  | cons outer further =>
      obtain ⟨inner, rest⟩ := node
      simp [parent?, chain]

theorem content_findSome?_within (contents : List NodeContent) (name : String) :
    ((within contents).findSome? (·.get? name)).map (·.content) =
      (NodeContent.search? contents name).map .ofJson := by
  induction contents with
  | nil => rfl
  | cons content around ih =>
      simp only [within, NodeContent.search?, List.findSome?_cons, get?]
      cases content.child? name with
      | some value => rfl
      | none => exact ih

theorem content_find? (node : ContextNode) (name : String) :
    (node.find? name).map (·.content) =
      (node.lineage.findSome? (·.get? name)).map (·.content) := by
  rw [find?_eq_search?, lineage, content_findSome?_within, Option.map_map]
  rfl

theorem parent?_of_find? (hit : node.find? name = some found) : found.parent? = some node := by
  rw [find?_eq_search?] at hit
  obtain ⟨value, -, rfl⟩ := Option.map_eq_some_iff.mp hit
  exact parent?_eq_some_iff.mpr rfl

theorem find?_eq_none_iff :
    node.find? name = none ↔ ∀ outer ∈ node.lineage, outer.get? name = none := by
  rw [← Option.map_eq_none_iff (f := (·.content)), content_find?, Option.map_eq_none_iff,
    List.findSome?_eq_none_iff]

theorem find?_eq_some_iff :
    node.find? name = some found ↔ found.parent? = some node ∧
      ∃ child, node.lineage.findSome? (·.get? name) = some child ∧
        found.content = child.content := by
  have same := content_find? node name
  constructor
  · intro hit
    rw [hit, Option.map_some] at same
    obtain ⟨child, first, holds⟩ := Option.map_eq_some_iff.mp same.symm
    exact ⟨parent?_of_find? hit, child, first, holds.symm⟩
  · rintro ⟨inside, child, first, holds⟩
    rw [first, Option.map_some] at same
    obtain ⟨other, hit, alike⟩ := Option.map_eq_some_iff.mp same
    -- A node is what it holds together with what is around it.
    have around := parent?_eq_some_iff.mp (parent?_of_find? hit)
    have equal : other = found := by
      obtain ⟨content, outer⟩ := other
      obtain ⟨content', outer'⟩ := found
      rw [ContextNode.mk.injEq]
      exact ⟨alike.trans holds.symm, around.trans (parent?_eq_some_iff.mp inside).symm⟩
    rw [hit, equal]

theorem Searches.lineage_eq (searches : node.Searches earlier latest) :
    latest.lineage = earlier ++ node.lineage := by
  induction searches with
  | start => rfl
  | next before hit ih =>
      rw [ContextNode.lineage_eq, parent?_of_find? hit, Option.map_some, Option.getD_some, ih,
        List.cons_append]

theorem Searches.content_find? (searches : node.Searches earlier latest) (name : String) :
    (latest.find? name).map (·.content) =
      ((earlier.findSome? (·.get? name)).or (node.find? name)).map (·.content) := by
  calc (latest.find? name).map (·.content)
      = (latest.lineage.findSome? (·.get? name)).map (·.content) :=
        ContextNode.content_find? latest name
    _ = ((earlier.findSome? (·.get? name)).or (node.lineage.findSome? (·.get? name))).map
          (·.content) := by rw [searches.lineage_eq, List.findSome?_append]
    _ = ((earlier.findSome? (·.get? name)).or (node.find? name)).map (·.content) := by
        rw [Option.map_or, Option.map_or, ContextNode.content_find?]

/-- A search fails where neither the node nor any node around it has a child of the name. Otherwise
it finds what the nearest of them has, as a node within the node itself. What is found answers with
its own children first, and for all other names as the node does; so do all nodes found when
searches follow one another, the latest first, and the nodes around the last of them are the nodes
found before it and those that were there from the start. -/
theorem find?_nearest (node : ContextNode) (name : String) :
    (node.find? name = none ↔ ∀ outer ∈ node.lineage, outer.get? name = none) ∧
      (∀ found, node.find? name = some found ↔ found.parent? = some node ∧
        ∃ nearer outer further child, node.lineage = nearer ++ outer :: further ∧
          (∀ passed ∈ nearer, passed.get? name = none) ∧ outer.get? name = some child ∧
          found.content = child.content) ∧
      (∀ found, node.find? name = some found → ∀ other, (found.find? other).map (·.content) =
        ((found.get? other).or (node.find? other)).map (·.content)) ∧
      ∀ earlier latest, node.Searches earlier latest →
        latest.lineage = earlier ++ node.lineage ∧
          ∀ other, (latest.find? other).map (·.content) =
            ((earlier.findSome? (·.get? other)).or (node.find? other)).map (·.content) := by
  refine ⟨find?_eq_none_iff, ?nearest, ?once, ?often⟩
  case nearest =>
    intro found
    rw [find?_eq_some_iff]
    apply and_congr_right
    intro inside
    constructor
    · rintro ⟨child, first, holds⟩
      obtain ⟨nearer, outer, further, split, hit, passed⟩ := List.findSome?_eq_some_iff.mp first
      exact ⟨nearer, outer, further, child, split, passed, hit, holds⟩
    · rintro ⟨nearer, outer, further, child, split, passed, hit, holds⟩
      refine ⟨child, ?_, holds⟩
      exact List.findSome?_eq_some_iff.mpr ⟨nearer, outer, further, split, hit, passed⟩
  case once =>
    intro found hit other
    have searches : node.Searches [found] found := .next .start hit
    have answers := searches.content_find? other
    rwa [List.findSome?_singleton] at answers
  case often =>
    intro earlier latest searches
    exact ⟨searches.lineage_eq, searches.content_find?⟩

/-- A search goes past a sequence to a function, and one in what the function gave past all of them
to the outermost node. What both have found stays to be searched. -/
theorem find?_nearest_function :
    let node : ContextNode := ⟨.leaf (.bool true), [.sequence [.null, .string "x"],
      .function fun name => if name = "user" then some (.object [("id", .int 7)]) else none,
      .optional (some (.string "v")), .empty,
      .mapping [("title", .string "Page"), ("user", .string "nobody")]]⟩
    (∀ outer ∈ node.lineage, outer.get? "city" = none) ∧ node.find? "city" = none ∧
      ∃ user title, node.find? "user" = some user ∧ user.parent? = some node ∧
        (user.find? "1").map (·.content) = some (.leaf (.string "x")) ∧
        user.find? "title" = some title ∧ title.parent? = some user ∧
        node.Searches [title, user] title ∧ title.lineage = [title, user] ++ node.lineage ∧
        (title.find? "id").map (·.content) = some (.leaf (.int 7)) := by
  intro node
  let user : ContextNode := ⟨.mapping [("id", .int 7)], node.chain⟩
  let title : ContextNode := ⟨.leaf (.string "Page"), user.chain⟩
  have missed : node.find? "city" = none := rfl
  have first : node.find? "user" = some user := rfl
  have second : user.find? "title" = some title := rfl
  have searches : node.Searches [title, user] title := .next (.next .start first) second
  obtain ⟨lineage, answers⟩ := (find?_nearest node "title").2.2.2 _ _ searches
  refine ⟨(find?_nearest node "city").1.mp missed, missed, user, title, first,
    ((find?_nearest node "user").2.1 user |>.mp first).1, ?_, second,
    ((find?_nearest user "title").2.1 title |>.mp second).1, searches, lineage, ?_⟩
  · exact (find?_nearest node "user").2.2.1 user first "1"
  · exact answers "id"

end ContextNode

end Stencil
