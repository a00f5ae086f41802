import Stencil.Proofs.Compile.Included

/-!
Templates that blocks are given for. Main statement: a template of markup is compiled like its text
with the texts of the given blocks in place of what its own blocks have inside.
-/

namespace Stencil

open Lexeme

def GivenBlocks.Give (given : GivenBlocks) (inside : String → Option Markup) : Prop :=
  ∀ name, (given.find? name).map (List.map Token.unplaced) =
    (inside name).map fun markup => markup.tokens.map Token.unplaced

namespace GivenBlocks

variable {given : List GivenBlock} {outer : GivenBlocks} {inside : String → Option Markup}
  {blocks : List (String × Markup)}

theorem find?_cons (given : List GivenBlock) (outer : GivenBlocks) (name : String) :
    find? (given :: outer) name = (find? [given] name).or (outer.find? name) := by
  unfold find?
  rw [List.flatten_cons, List.find?_append, List.flatten_singleton, Option.map_or]

theorem find?_givenBlocks (blocks : List (String × Markup)) (name : String) :
    find? [Compile.givenBlocks blocks] name = (blocks.lookup name).map Markup.tokens := by
  unfold find?
  rw [List.flatten_singleton]
  induction blocks with
  | nil => rfl
  | cons block rest ih =>
      rw [Compile.givenBlocks, List.map_cons, List.lookup_cons]
      by_cases same : block.1 = name
      · simp [same]
      · have different : (name == block.1) = false := by simpa using Ne.symm same
        rw [List.find?_cons_of_neg (by simpa using same), different]
        exact ih

theorem give_nil : Give [] fun _ => none := fun _ => rfl

theorem Give.cons (give : outer.Give inside)
    (same : given.map GivenBlock.unplaced =
      (Compile.givenBlocks blocks).map GivenBlock.unplaced) :
    Give (given :: outer) fun name => (blocks.lookup name).or (inside name) := by
  intro name
  have here : (find? [given] name).map (List.map Token.unplaced) =
      (blocks.lookup name).map fun markup => markup.tokens.map Token.unplaced := by
    rw [← find?_unplaced, List.map_singleton, same, ← List.map_singleton, find?_unplaced,
      find?_givenBlocks, Option.map_map]
    rfl
  rw [find?_cons, Option.map_or, here, give name, Option.map_or]

end GivenBlocks

def Markup.IsReadable (inside : String → Option Markup) : Prop :=
  ∀ name markup, inside name = some markup →
    ∀ more, ReadsAll markup.tokens ('\x7b' :: '\x7b' :: more)

namespace BlockReplacement

variable {given : GivenBlocks} {inside : String → Option Markup} {markup : Markup}

theorem fill_of_give (give : given.Give inside) (markup : Markup) :
    (markup.fill given.find?).map Token.unplaced =
      (markup.replaced inside).tokens.map Token.unplaced := by
  rw [← Markup.fill_tokens]
  refine Markup.fill_unplaced markup fun name => ?_
  rw [give name, Option.map_map]
  rfl

theorem replaceAll_template (give : given.Give inside) {tokens : List Token}
    (same : tokens.map Token.unplaced =
      markup.tokens.map Token.unplaced ++ [⟨.eof, .unknown, ""⟩]) :
    ((start given).replaceAll tokens).map Token.unplaced =
      (markup.replaced inside).tokens.map Token.unplaced ++ [⟨.eof, .unknown, ""⟩] := by
  have whole : tokens.map Token.unplaced =
      (markup.tokens ++ [(⟨.eof, .unknown, ""⟩ : Token)]).map Token.unplaced := by
    rw [same, List.map_append]
    rfl
  calc ((start given).replaceAll tokens).map Token.unplaced
      = (start given).unplaced.replaceAll (tokens.map Token.unplaced) :=
        (replaceAll_unplaced _ _).symm
    _ = ((start given).replaceAll (markup.tokens ++ [⟨.eof, .unknown, ""⟩])).map
          Token.unplaced := by rw [whole, replaceAll_unplaced]
    _ = (markup.fill given.find?).map Token.unplaced ++ [⟨.eof, .unknown, ""⟩] := by
        rw [start, replaceAll_markup, List.map_append]
        rfl
    _ = (markup.replaced inside).tokens.map Token.unplaced ++ [⟨.eof, .unknown, ""⟩] := by
        rw [fill_of_give give]

theorem replaceAll_call (give : given.Give inside) {tokens : List Token} {name : String}
    {first last : Token} (opens : first.kind = .tag .openParent name)
    (closes : last.kind = .tag .close name)
    (same : tokens.map Token.unplaced =
      (first :: (markup.tokens ++ [last])).map Token.unplaced ++ [⟨.eof, .unknown, ""⟩]) :
    ((start given).replaceAll tokens).map Token.unplaced =
      (first :: ((markup.replaced inside).tokens ++ [last])).map Token.unplaced ++
        [⟨.eof, .unknown, ""⟩] := by
  have whole : tokens.map Token.unplaced =
      (first :: (markup.tokens ++ [last, (⟨.eof, .unknown, ""⟩ : Token)])).map Token.unplaced := by
    rw [same]
    simp [Token.unplaced]
  have entered : (start given).replace first = ([first], ⟨given, 1, none⟩) := by
    simp [start, replace, opens, TagKind.isOpening]
  have left : replace ⟨given, 1, none⟩ last = ([last], start given) := by
    simp [start, replace, closes]
  calc ((start given).replaceAll tokens).map Token.unplaced
      = (start given).unplaced.replaceAll (tokens.map Token.unplaced) :=
        (replaceAll_unplaced _ _).symm
    _ = ((start given).replaceAll
          (first :: (markup.tokens ++ [last, ⟨.eof, .unknown, ""⟩]))).map Token.unplaced := by
        rw [whole, replaceAll_unplaced]
    _ = (first :: (markup.fill given.find? ++ [last, ⟨.eof, .unknown, ""⟩])).map
          Token.unplaced := by
        rw [replaceAll, entered]
        dsimp only
        rw [replaceAll_markup, replaceAll, left]
        rfl
    _ = (first :: ((markup.replaced inside).tokens ++ [last])).map Token.unplaced ++
          [⟨.eof, .unknown, ""⟩] := by
        simp [fill_of_give give, Token.unplaced]

end BlockReplacement

theorem Markup.text_replaced (markup : Markup) (inside : String → Option Markup) :
    (markup.replaced inside).source = markup.text fun name => (inside name).map source := by
  induction markup with
  | done => rfl
  | leaf token isLeaf rest ih =>
      rw [replaced, source, text, text, ← ih]
      rfl
  | pair kind name opening before closing isPaired opens closes rest ihBefore ihRest =>
      have within : ((given? inside kind name).getD (before.replaced inside)).source =
          (given? (fun name => (inside name).map source) kind name).getD
            (before.text fun name => (inside name).map source) := by
        unfold given?
        dsimp only
        split
        · cases inside name with
          | none => exact ihBefore
          | some other => rfl
        · exact ihBefore
      have outside : given? (fun _ => (none : Option String)) kind name = none := by
        unfold given?
        split <;> rfl
      rw [replaced, source, text, text, outside, Option.getD_none, ← within, ← ihRest]
      rfl

namespace Compile

theorem compileBody_replaced (markup : Markup) {setting otherSetting : Setting}
    {body otherBody : Body} {inside : String → Option Markup}
    (noLambdas : setting.schema.lambdas = []) (sameSchema : setting.schema = otherSetting.schema)
    (nests : markup.Of body.source)
    (otherSource : otherBody.source = markup.text fun name => (inside name).map Markup.source)
    (give : body.blocks.Give inside) (readable : Markup.IsReadable inside)
    (noneThere : otherBody.blocks = []) (start : (State.start body).Alike (.start otherBody))
    (sameIndent : body.indent = otherBody.indent) (room otherRoom : Nat) :
    SameCalls (compileBody setting room body) (compileBody otherSetting otherRoom otherBody) := by
  obtain ⟨whole, reads⟩ := nests.readsAll
  have filled : ReadsAll (markup.replaced inside).tokens [] := by
    rw [← Markup.fill_tokens]
    refine Markup.readsAll_fill reads rfl ?_
    intro name tokens found
    obtain ⟨other, given, rfl⟩ := Option.map_eq_some_iff.mp found
    exact readable name other given
  have written : chars (markup.replaced inside).tokens = otherBody.source.toList := by
    rw [otherSource, Markup.chars_tokens, Markup.text_replaced]
  obtain ⟨tokens, read, same⟩ := tokenize_of_readsAll reads whole body.stack.top.name
  obtain ⟨otherTokens, otherRead, otherSame⟩ :=
    tokenize_of_readsAll filled written otherBody.stack.top.name
  have replaced : ((BlockReplacement.start body.blocks).replaceAll tokens).map Token.unplaced =
      otherTokens.map Token.unplaced :=
    (BlockReplacement.replaceAll_template give same).trans otherSame.symm
  have isLocal : ∀ t ∈ (BlockReplacement.start body.blocks).replaceAll tokens,
      t.isLocal = true := by
    have spelled : ((BlockReplacement.start body.blocks).replaceAll tokens).map Token.unplaced =
        ((markup.replaced inside).tokens ++ [(⟨.eof, .unknown, ""⟩ : Token)]).map
          Token.unplaced := by
      rw [replaced, otherSame, List.map_append]
      rfl
    refine Token.forall_of_unplaced (fun _ => Iff.rfl) spelled
      (List.forall_mem_append.mpr ⟨?_, by simp [Token.isLocal]⟩)
    intro t member
    exact (Markup.holds_of_mem member).isLocal
  have grouped : groups body = .ok (LineClassifier.groupsOf
      ((BlockReplacement.start body.blocks).replaceAll tokens)) := by
    simp only [groups, read]
  have otherGrouped := groups_unreplaced noneThere otherRead
  rw [compileBody_eq, compileBody_eq]
  refine compileWith_alike sameSchema noLambdas start sameIndent grouped otherGrouped ?_ ?_
  · rw [← LineClassifier.groupsOf_unplaced, replaced, LineClassifier.groupsOf_unplaced]
  · intro t member
    exact isLocal t.token (LineClassifier.token_mem_of_mem_groupsOf member)

end Compile

end Stencil
