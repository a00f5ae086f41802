import Stencil.Proofs.Template.Markup

/-!
Parent calls as markup: blocks side by side. Main statement: a parent call collects the blocks of
its markup in order, and with other markup in place of what some of them have inside it collects
that.
-/

namespace Stencil

namespace Markup

open Lexeme

variable {markup : Markup} {given : String → Option Markup}

def IsBlockFree : Markup → Prop
  | done => True
  | leaf _ _ rest => rest.IsBlockFree
  | pair kind _ _ inside _ _ _ _ rest =>
      kind ≠ .openBlock ∧ inside.IsBlockFree ∧ rest.IsBlockFree

def IsBlockList : Markup → Prop
  | done => True
  | leaf _ _ rest => rest.IsBlockList
  | pair kind _ _ _ _ _ _ _ rest => kind = .openBlock ∧ rest.IsBlockList

def blocks : Markup → List (String × Markup)
  | done => []
  | leaf _ _ rest => rest.blocks
  | pair _ name _ inside _ _ _ _ rest => (name, inside) :: rest.blocks

def replaced (given : String → Option Markup) : Markup → Markup
  | done => done
  | leaf token isLeaf rest => leaf token isLeaf (rest.replaced given)
  | pair kind name opening inside closing isPaired opens closes rest =>
      pair kind name opening ((given? given kind name).getD (inside.replaced given)) closing
        isPaired opens closes (rest.replaced given)

def source (markup : Markup) : String := markup.text fun _ => none

def ofBlocks : List (String × Markup) → Markup
  | [] => done
  | (name, inside) :: rest =>
      pair .openBlock name (TagKind.openBlock.token name) inside (TagKind.close.token name)
        rfl rfl rfl (ofBlocks rest)

theorem tokens_ofBlocks (blocks : List (String × Markup)) :
    (ofBlocks blocks).tokens = blocks.flatMap ParentCall.blockTokens := by
  induction blocks with
  | nil => rfl
  | cons block rest ih => simp [ofBlocks, tokens, ParentCall.blockTokens, ih]

theorem blocks_ofBlocks (blocks : List (String × Markup)) : (ofBlocks blocks).blocks = blocks := by
  induction blocks with
  | nil => rfl
  | cons block rest ih =>
      simp only [ofBlocks, Markup.blocks, ih]

theorem isBlockList_ofBlocks (blocks : List (String × Markup)) : (ofBlocks blocks).IsBlockList := by
  induction blocks with
  | nil => trivial
  | cons block rest ih => exact ⟨rfl, ih⟩

theorem fill_tokens (markup : Markup) (given : String → Option Markup) :
    markup.fill (fun name => (given name).map tokens) = (markup.replaced given).tokens := by
  induction markup with
  | done => rfl
  | leaf token isLeaf rest ih => rw [fill, replaced, tokens, ih]
  | pair kind name opening inside closing isPaired opens closes rest ihInside ihRest =>
      have within : (given? (fun name => (given name).map tokens) kind name).getD
          (inside.fill fun name => (given name).map tokens) =
          ((given? given kind name).getD (inside.replaced given)).tokens := by
        unfold given?
        dsimp only
        split
        · cases given name with
          | none => exact ihInside
          | some other => rfl
        · exact ihInside
      rw [fill, replaced, tokens, within, ihRest]

theorem fill_unplaced (markup : Markup) {given other : String → Option (List Token)}
    (same : ∀ name, (given name).map (List.map Token.unplaced) =
      (other name).map (List.map Token.unplaced)) :
    (markup.fill given).map Token.unplaced = (markup.fill other).map Token.unplaced := by
  induction markup with
  | done => rfl
  | leaf token isLeaf rest ih => rw [fill, fill, List.map_cons, List.map_cons, ih]
  | pair kind name opening inside closing isPaired opens closes rest ihInside ihRest =>
      have within : ((given? given kind name).getD (inside.fill given)).map Token.unplaced =
          ((given? other kind name).getD (inside.fill other)).map Token.unplaced := by
        unfold given?
        split
        · have here := same name
          revert here
          cases given name <;> cases other name <;> intro here
          · exact ihInside
          · cases here
          · cases here
          · exact Option.some.inj here
        · exact ihInside
      simp only [fill, List.map_cons, List.map_append, within, ihRest]

theorem replaced_of_isBlockFree (free : markup.IsBlockFree) (given : String → Option Markup) :
    markup.replaced given = markup := by
  induction markup with
  | done => rfl
  | leaf token isLeaf rest ih => rw [replaced, ih free]
  | pair kind name opening inside closing isPaired opens closes rest ihInside ihRest =>
      obtain ⟨other, within, further⟩ := free
      simp only [replaced, given?, if_neg other, Option.getD_none, ihInside within, ihRest further]

theorem blocks_replaced (isList : markup.IsBlockList)
    (free : ∀ block ∈ markup.blocks, block.2.IsBlockFree) (given : String → Option Markup) :
    (markup.replaced given).blocks =
      markup.blocks.map fun block => (block.1, (given block.1).getD block.2) := by
  induction markup with
  | done => rfl
  | leaf token isLeaf rest ih => exact ih isList free
  | pair kind name opening inside closing isPaired opens closes rest ihInside ihRest =>
      obtain ⟨rfl, further⟩ := isList
      obtain ⟨within, others⟩ := List.forall_mem_cons.mp free
      simp only [replaced, blocks, List.map_cons, given?, if_true, ihRest further others,
        replaced_of_isBlockFree within]

theorem lookup_replaced (isList : markup.IsBlockList)
    (free : ∀ block ∈ markup.blocks, block.2.IsBlockFree) (given : String → Option Markup)
    (name : String) :
    (markup.replaced given).blocks.lookup name =
      (markup.blocks.lookup name).map (given name).getD := by
  rw [blocks_replaced isList free]
  induction markup.blocks with
  | nil => rfl
  | cons block rest ih =>
      rw [List.map_cons, List.lookup_cons, List.lookup_cons]
      cases same : name == block.1 with
      | true => rw [eq_of_beq same, Option.map_some]
      | false => exact ih

theorem isBlockList_replaced (isList : markup.IsBlockList) (given : String → Option Markup) :
    (markup.replaced given).IsBlockList := by
  induction markup with
  | done => trivial
  | leaf token isLeaf rest ih => exact ih isList
  | pair kind name opening inside closing isPaired opens closes rest ihInside ihRest =>
      exact ⟨isList.1, ihRest isList.2⟩

theorem chars_tokens (markup : Markup) : chars markup.tokens = markup.source.toList := by
  have filled : markup.fill (fun _ => none) = markup.tokens := by
    induction markup with
    | done => rfl
    | leaf token isLeaf rest ih => rw [fill, tokens, ih]
    | pair kind name opening inside closing isPaired opens closes rest ihInside ihRest =>
        have none : given? (fun _ => (none : Option (List Token))) kind name = none := by
          unfold given?
          split <;> rfl
        rw [fill, tokens, none, Option.getD_none, ihInside, ihRest]
  rw [← filled]
  exact chars_fill markup fun _ => rfl

theorem readsAll_blocks {rest : List Char} (reads : ReadsAll markup.tokens rest)
    {block : String × Markup} (member : block ∈ markup.blocks) (more : List Char) :
    ReadsAll block.2.tokens ('\x7b' :: '\x7b' :: more) := by
  induction markup generalizing rest with
  | done => cases member
  | leaf token isLeaf others ih =>
      obtain _ | ⟨-, further⟩ := reads
      exact ih further member
  | pair kind name opening inside closing isPaired opens closes others ihInside ihRest =>
      obtain _ | ⟨-, further⟩ := reads
      obtain ⟨within, following⟩ := further.of_append
      obtain _ | ⟨shut, later⟩ := following
      obtain rfl | member := List.mem_cons.mp member
      · obtain ⟨inner, raw, -⟩ := shut.of_tag closes
        refine within.agree (.of_take ?_ _)
        rw [chars_cons, raw]
        rfl
      · exact ihRest later member

end Markup

def Compile.givenBlocks (blocks : List (String × Markup)) : List GivenBlock :=
  blocks.map fun block => ⟨block.1, block.2.tokens⟩

theorem Markup.gives {markup : Markup} (isList : markup.IsBlockList) :
    Token.Gives markup.tokens (Compile.givenBlocks markup.blocks) := by
  induction markup with
  | done => exact .nil
  | leaf token isLeaf rest ih =>
      obtain ⟨noOpening, noEnd⟩ := Markup.untagged_of_isLeaf isLeaf
      exact .other noOpening noEnd (ih isList)
  | pair kind name opening inside closing isPaired opens closes rest ihInside ihRest =>
      obtain ⟨rfl, further⟩ := isList
      obtain ⟨opened, isBlock⟩ := Markup.opened?_of_isPaired opens isPaired
      exact .block opened (by rw [isBlock]; rfl) (Token.closed?_eq_some_iff.mpr closes)
        inside.wellNested (ihRest further)

namespace ParentCall

variable {call : ParentCall}

theorem collects_blockList (markup : Markup) (isList : markup.IsBlockList)
    (single : call.openNames = [call.parent]) (between : call.inBlock = false)
    (distinct : (markup.blocks.map Prod.fst).Nodup)
    (fresh : ∀ other ∈ call.blocks, other.name ∉ markup.blocks.map Prod.fst) :
    Collects call markup.tokens
      { call with blocks := (Compile.givenBlocks markup.blocks).reverse ++ call.blocks } := by
  have names : (Compile.givenBlocks markup.blocks).map GivenBlock.name =
      markup.blocks.map Prod.fst := by
    rw [Compile.givenBlocks, List.map_map]
    rfl
  rw [← names] at distinct fresh
  exact collects_gives call (Markup.gives isList) (fun _ => Markup.isEof_of_mem) single between
    distinct fresh

end ParentCall

end Stencil
