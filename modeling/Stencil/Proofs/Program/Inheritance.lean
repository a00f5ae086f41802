import Stencil.Proofs.Program.ParentCall

/-!
Templates that inherit from each other, each a call of the next one. Main statement: the first of
them is compiled like the text of the last one with the texts of blocks in place of its own, where
the outermost call that has a block counts.
-/

namespace Stencil

open Lexeme

/-- That a template is a call of a parent, with markup of distinct blocks between its tags. -/
structure Markup.Calls (markup : Markup) (parent : String) (template : Template) : Prop where
  reads : ∃ tokens first last, tokenize template.name template.source = .ok tokens ∧
    first.kind = .tag .openParent parent ∧ last.kind = .tag .close parent ∧
    tokens.map Token.unplaced =
      (first :: (markup.tokens ++ [last])).map Token.unplaced ++ [⟨.eof, .unknown, ""⟩]
  isBlockList : markup.IsBlockList
  distinct : (markup.blocks.map Prod.fst).Nodup
  blockFree : ∀ block ∈ markup.blocks, block.2.IsBlockFree

namespace Markup.Calls

variable {markup : Markup} {parent : String} {template : Template}

theorem isReadable (calls : markup.Calls parent template) :
    IsReadable fun name => markup.blocks.lookup name := by
  obtain ⟨tokens, first, last, read, opens, closes, same⟩ := calls.reads
  have unchanged : ∀ t ∈ tokens, ∀ opening closing, t.kind ≠ .delimiters opening closing := by
    have spelled : tokens.map Token.unplaced =
        (first :: (markup.tokens ++ [last, (⟨.eof, .unknown, ""⟩ : Token)])).map
          Token.unplaced := by
      rw [same]
      simp [Token.unplaced]
    refine Token.forall_of_unplaced (fun _ => Iff.rfl) spelled ?_
    refine List.forall_mem_cons.mpr ⟨by simp [opens], ?_⟩
    refine List.forall_mem_append.mpr ⟨?_, by simp [closes]⟩
    intro t member
    exact (holds_of_mem member).kind_ne_delimiters
  obtain ⟨body, position, rfl, -, reads⟩ := readsAll_of_tokenize read unchanged
  rw [List.map_append] at same
  obtain ⟨inner, -⟩ := List.append_inj' same rfl
  have whole : ReadsAll (first :: (markup.tokens ++ [last])) [] := reads.of_unplaced inner
  obtain _ | ⟨-, further⟩ := whole
  intro name inside found more
  obtain ⟨before, after, blocks, -⟩ := List.lookup_eq_some_iff.mp found
  have member : (name, inside) ∈ markup.blocks := by
    rw [blocks]
    simp
  exact readsAll_blocks further.of_append.1 member more

theorem of_write {blocks : List (String × String)} {inners : List (String × Markup)}
    (each : List.Forall₂ BlockReads blocks inners) (named : IsTagName parent)
    (distinct : (inners.map Prod.fst).Nodup) (blockFree : ∀ block ∈ inners, block.2.IsBlockFree)
    (name : String) : (ofBlocks inners).Calls parent ⟨name, ParentCall.write parent blocks⟩ := by
  obtain ⟨tokens, read, same⟩ := tokenize_of_readsAll
    (BlockReads.readsAll_callTokens named each) (BlockReads.chars_callTokens each) name
  rw [Compile.callTokens_eq] at same
  refine ⟨⟨tokens, _, _, read, rfl, rfl, same⟩, isBlockList_ofBlocks inners, ?_, ?_⟩
  · rw [blocks_ofBlocks]
    exact distinct
  · rw [blocks_ofBlocks]
    exact blockFree

end Markup.Calls

def Library.Finds (library : Library) (template : Template) (name : String) (found : Template) :
    Prop :=
  ∀ stack position, stack.top.name = template.name → library.fetch name stack position = .ok found

theorem Library.finds_of_isPlainName {library : Library} {name : String} {found : Template}
    (plain : IsPlainName name) (holds : ∀ stack, library name stack = .ok found)
    (template : Template) : library.Finds template name found := by
  intro stack position _
  exact fetch_of_isPlainName plain (holds stack) position

/-- That a template comes down to a last one by calls, each with the name it asks for and with
markup of blocks, outermost first. -/
inductive Library.Inherits (library : Library) (base : Template) :
    Template → List (String × Markup) → Prop where
  | base : library.Inherits base base []
  | call {template parent : Template} {name : String} {markup : Markup}
      {calls : List (String × Markup)} : markup.Calls name template →
      library.Finds template name parent → library.Inherits base parent calls →
      library.Inherits base template ((name, markup) :: calls)

/-- What the outermost of some calls that has a block gives for it. -/
def Markup.override? (calls : List (String × Markup)) (name : String) : Option Markup :=
  calls.findSome? fun call => call.2.blocks.lookup name

def Instruction.included (names : List String) (body : List Instruction) : List Instruction :=
  names.foldr (fun name inner => [.inclusion name inner]) body

def Event.included (names : List String) (events : List Event) : List Event :=
  names.foldr (fun name inner => .call (.enterPartial name) :: (inner ++ [.call .exitPartial]))
    events

theorem Spells.included {events : List Event} {body : List Instruction}
    (spells : Spells events body)
    (names : List String) :
    Spells (Event.included names events) (Instruction.included names body) := by
  induction names with
  | nil => exact spells
  | cons name names ih => exact .enclose (.inclusion name) ih

theorem joined_included (names : List String) (body : List Instruction) :
    joined (Instruction.included names body) = Instruction.included names (joined body) := by
  induction names with
  | nil => rfl
  | cons name names ih =>
      calc joined [.inclusion name (Instruction.included names body)]
          = [.inclusion name (joined (Instruction.included names body))] := by
            rw [joined, joinOnto, joinOnto]
            exact congrArg List.reverse (addJoined_close [] (.inclusion name) _)
        _ = [.inclusion name (Instruction.included names (joined body))] := by rw [ih]

namespace Compile

structure Body.IsGiven (body : Body) (template : Template) (inside : String → Option Markup) :
    Prop where
  source : body.source = template.source
  name : body.stack.top.name = template.name
  give : body.blocks.Give inside
  readable : Markup.IsReadable inside

variable {setting otherSetting : Setting} {body otherBody : Body} {template parent base : Template}
  {inside : String → Option Markup} {name : String} {markup : Markup}

theorem compileWith_calls (nested : Nested) (noLambdas : setting.schema.lambdas = [])
    (isGiven : body.IsGiven template inside) (calls : markup.Calls name template)
    (finds : setting.library.Finds template name parent) :
    ∃ blocks,
      (body.enter (.start body) .parent parent "" blocks).IsGiven parent
        (fun block => (inside block).or (markup.blocks.lookup block)) ∧
      compileWith setting (some nested) body =
        (nested (body.enter (.start body) .parent parent "" blocks)).map fun result =>
          (Event.included [name] result.1, result.2) := by
  obtain ⟨tokens, first, last, read, opens, closes, same⟩ := calls.reads
  rw [← isGiven.name, ← isGiven.source] at read
  have grouped : groups body = .ok (LineClassifier.groupsOf
      ((BlockReplacement.start body.blocks).replaceAll tokens)) := by
    simp only [groups, read]
  have replaced := BlockReplacement.replaceAll_call isGiven.give opens closes same
  have distinct : ((markup.replaced inside).blocks.map Prod.fst).Nodup := by
    rw [Markup.blocks_replaced calls.isBlockList calls.blockFree, List.map_map]
    exact calls.distinct
  obtain ⟨position, given, sameGiven, called⟩ := compileWith_call (some nested) noLambdas grouped
    (Markup.isBlockList_replaced calls.isBlockList inside) distinct opens closes replaced
  rw [includeTemplate_found (finds body.stack position isGiven.name) (.inl rfl)] at called
  have outermost : (fun block => ((markup.replaced inside).blocks.lookup block).or (inside block)) =
      fun block => (inside block).or (markup.blocks.lookup block) := by
    funext block
    rw [Markup.lookup_replaced calls.isBlockList calls.blockFree]
    cases markup.blocks.lookup block <;> cases inside block <;> rfl
  refine ⟨given :: body.blocks, ⟨rfl, rfl, ?_, ?_⟩, ?_⟩
  · rw [← outermost]
    exact isGiven.give.cons sameGiven
  · intro block other given
    obtain around | ⟨-, own⟩ := Option.or_eq_some_iff.mp given
    · exact isGiven.readable block other around
    · exact calls.isReadable block other own
  · rw [called]
    cases nested _ <;> rfl

/-- A template that inherits from another one by some calls is compiled like the text of that one
with the texts of blocks inside, of those given around the calls first and then of those of the
calls. -/
theorem compileBody_inherits {calls : List (String × Markup)}
    (noLambdas : setting.schema.lambdas = []) (sameSchema : setting.schema = otherSetting.schema)
    (nests : markup.Of base.source) (inherits : setting.library.Inherits base template calls)
    (isGiven : body.IsGiven template inside)
    (otherSource : otherBody.source = markup.text fun block =>
      ((inside block).or (Markup.override? calls block)).map Markup.source)
    (noneThere : otherBody.blocks = []) (start : (State.start body).Alike (.start otherBody))
    (sameIndent : body.indent = otherBody.indent) (room otherRoom : Nat)
    (enough : calls.length ≤ room) :
    ∃ outcome,
      compileBody setting room body = outcome.map (fun result =>
        (Event.included (calls.map Prod.fst) result.1, result.2)) ∧
      SameCalls outcome (compileBody otherSetting otherRoom otherBody) := by
  induction inherits generalizing body inside room with
  | base =>
      have alike : SameCalls (compileBody setting room body)
          (compileBody otherSetting otherRoom otherBody) := by
        refine compileBody_replaced markup noLambdas sameSchema (isGiven.source ▸ nests) ?_
          isGiven.give isGiven.readable noneThere start sameIndent room otherRoom
        simpa [Markup.override?] using otherSource
      refine ⟨compileBody setting room body, ?_, alike⟩
      cases compileBody setting room body <;> rfl
  | @call template parent name own rest calls finds _ ih =>
      obtain _ | room := room
      · cases enough
      obtain ⟨blocks, entered, called⟩ :=
        compileWith_calls (compileBody setting room) noLambdas isGiven calls finds
      have further : otherBody.source = markup.text fun block =>
          (((inside block).or (own.blocks.lookup block)).or
            (Markup.override? rest block)).map Markup.source := by
        rw [otherSource]
        congr 1
        funext block
        rw [Option.or_assoc, Markup.override?, List.findSome?_cons]
        cases own.blocks.lookup block <;> rfl
      have indent : (body.enter (.start body) .parent parent "" blocks).indent =
          otherBody.indent := by
        rw [← sameIndent]
        exact String.append_empty
      obtain ⟨outcome, compiled, alike⟩ :=
        ih entered further start indent room (Nat.le_of_succ_le_succ enough)
      refine ⟨outcome, ?_, alike⟩
      rw [compileBody, called, compiled]
      cases outcome <;> rfl

end Compile

namespace Program

open Compile

theorem ofEvents_included {events : List Event} {body : List Instruction}
    (spells : Spells events body) (names : List String) (root : String) :
    ∃ program, Program.ofEvents root (Event.included names events) = .ok program ∧
      program.instructions = Instruction.included names (joined body) :=
  ⟨_, ofEvents_spells (spells.included names) root, joined_included names body⟩

/-- A template that inherits from another one has the program of the text of that one with the texts
of blocks inside its own, in the inclusions of the templates between them. The outermost call that
has a block gives it, and a block that no call has is left as it is. -/
theorem compile_inherits {schema : Schema} {library : Library} {options : Options}
    {template base : Template} {calls : List (String × Markup)} {markup : Markup}
    (noLambdas : schema.lambdas = []) (nests : markup.Of base.source)
    (inherits : library.Inherits base template calls)
    (enough : calls.length ≤ options.maxIncludeDepth) (otherLibrary : Library) (alone : String) :
    (∃ program other,
      Program.compile schema library options template = .ok program ∧
      Program.compile schema otherLibrary options
        ⟨alone, markup.text fun block => (Markup.override? calls block).map Markup.source⟩ =
          .ok other ∧
      program.instructions = Instruction.included (calls.map Prod.fst) other.instructions) ∨
    ∃ error otherError,
      Program.compile schema library options template = .error error ∧
      Program.compile schema otherLibrary options
        ⟨alone, markup.text fun block => (Markup.override? calls block).map Markup.source⟩ =
          .error otherError := by
  have isGiven : (Body.root schema template).IsGiven template fun _ => none := by
    refine ⟨rfl, rfl, GivenBlocks.give_nil, ?_⟩
    intro name markup given
    cases given
  obtain ⟨outcome, compiled, alike⟩ : ∃ outcome,
      compileBody ⟨schema, library, options⟩ options.maxIncludeDepth (.root schema template) =
        outcome.map (fun result =>
          (Event.included (calls.map Prod.fst) result.1, result.2)) ∧
      SameCalls outcome (compileBody ⟨schema, otherLibrary, options⟩ options.maxIncludeDepth
        (.root schema ⟨alone,
          markup.text fun block => (Markup.override? calls block).map Markup.source⟩)) := by
    refine compileBody_inherits noLambdas ?_ nests inherits isGiven ?_ ?_ ?_ ?_ _ _ enough
    · rfl
    · rfl
    · rfl
    · exact ⟨rfl, rfl, rfl, rfl, rfl, rfl, rfl⟩
    · rfl
  unfold Program.compile Stencil.compile
  rw [compiled]
  revert alike
  generalize nested : compileBody ⟨schema, otherLibrary, options⟩ options.maxIncludeDepth _ = inner
  rintro (_ | @⟨events, atLineStart, only⟩)
  · exact .inr ⟨_, _, rfl, rfl⟩
  · obtain ⟨lines, last, -, instructions, derives, spells⟩ :=
      compileBody_derives _ _ _ _ _ nested (accepts_of_calls only)
    obtain ⟨program, made, same⟩ := ofEvents_included spells (calls.map Prod.fst) template.name
    exact .inl ⟨program, _, made, ofEvents_spells spells alone, same⟩

/-- Two calls that give the same block, of which the outer one counts. -/
theorem compile_inherits_twice :
    ∃ (markup : Markup) (calls : List (String × Markup)) (program other : Program),
      markup.Of "{{$b}}x{{/b}}" ∧
      calls.map Prod.fst = ["middle", "base"] ∧
      (markup.text fun block => (Markup.override? calls block).map Markup.source) =
        "{{$b}}outer{{/b}}" ∧
      Program.compile .dynamic
          (.ofCatalog [("middle", "{{<base}}{{$b}}inner{{/b}}{{/base}}"),
            ("base", "{{$b}}x{{/b}}")])
          .default ⟨"main", "{{<middle}}{{$b}}outer{{/b}}{{/middle}}"⟩ = .ok program ∧
      Program.compile .dynamic (.ofCatalog []) .default ⟨"alone", "{{$b}}outer{{/b}}"⟩ =
        .ok other ∧
      program.instructions = Instruction.included ["middle", "base"] other.instructions := by
  have read : (tokenize "base" "{{$b}}x{{/b}}").toOption = some
      [⟨.tag .openBlock "b", ⟨"base", 1, 1, "{{$b}}x{{/b}}"⟩, "{{$b}}"⟩,
        ⟨.text "x", ⟨"base", 1, 7, "{{$b}}x{{/b}}"⟩, "x"⟩,
        ⟨.tag .close "b", ⟨"base", 1, 8, "{{$b}}x{{/b}}"⟩, "{{/b}}"⟩,
        ⟨.eof, ⟨"base", 1, 14, "{{$b}}x{{/b}}"⟩, ""⟩] := by
    decide +kernel
  have outerRead : (tokenize "" "outer").toOption = some
      [⟨.text "outer", ⟨"", 1, 1, "outer"⟩, "outer"⟩, ⟨.eof, ⟨"", 1, 6, "outer"⟩, ""⟩] := by
    decide +kernel
  have innerRead : (tokenize "" "inner").toOption = some
      [⟨.text "inner", ⟨"", 1, 1, "inner"⟩, "inner"⟩, ⟨.eof, ⟨"", 1, 6, "inner"⟩, ""⟩] := by
    decide +kernel
  obtain ⟨markup, nests, filled⟩ : ∃ markup : Markup,
      markup.Of "{{$b}}x{{/b}}" ∧
      ∀ given, markup.text given = "{{$b}}" ++ (given "b").getD "x" ++ "{{/b}}" := by
    refine ⟨.pair .openBlock "b" _ (.leaf _ rfl .done) _ rfl rfl rfl .done,
      ⟨"base", _, eq_ok_of_toOption read⟩, ?_⟩
    intro given
    simp only [Markup.text, Markup.given?, if_true, String.append_empty]
  obtain ⟨outer, outerReads, outerFree, outerSource⟩ : ∃ outer : Markup,
      BlockReads ("b", "outer") ("b", outer) ∧ outer.IsBlockFree ∧ outer.source = "outer" :=
    ⟨.leaf _ rfl .done,
      blockReads_of ⟨rfl, by decide⟩ ⟨"", _, eq_ok_of_toOption outerRead⟩ (by decide), trivial, rfl⟩
  obtain ⟨inner, innerReads, innerFree⟩ : ∃ inner : Markup,
      BlockReads ("b", "inner") ("b", inner) ∧ inner.IsBlockFree :=
    ⟨.leaf _ rfl .done,
      blockReads_of ⟨rfl, by decide⟩ ⟨"", _, eq_ok_of_toOption innerRead⟩ (by decide), trivial⟩
  have middleName : IsPlainName "middle" := ⟨⟨rfl, by decide⟩, by decide⟩
  have baseName : IsPlainName "base" := ⟨⟨rfl, by decide⟩, by decide⟩
  have callsMiddle : (Markup.ofBlocks [("b", outer)]).Calls "middle"
      ⟨"main", "{{<middle}}{{$b}}outer{{/b}}{{/middle}}"⟩ :=
    .of_write (.cons outerReads .nil) middleName.toIsTagName (by simp) (by simpa using outerFree) _
  have callsBase : (Markup.ofBlocks [("b", inner)]).Calls "base"
      ⟨"middle", "{{<base}}{{$b}}inner{{/b}}{{/base}}"⟩ :=
    .of_write (.cons innerReads .nil) baseName.toIsTagName (by simp) (by simpa using innerFree) _
  have inherits : (Library.ofCatalog [("middle", "{{<base}}{{$b}}inner{{/b}}{{/base}}"),
      ("base", "{{$b}}x{{/b}}")]).Inherits
      ⟨"base", "{{$b}}x{{/b}}"⟩
      ⟨"main", "{{<middle}}{{$b}}outer{{/b}}{{/middle}}"⟩
      [("middle", .ofBlocks [("b", outer)]), ("base", .ofBlocks [("b", inner)])] :=
    .call callsMiddle (Library.finds_of_isPlainName middleName (fun _ => rfl) _)
      (.call callsBase (Library.finds_of_isPlainName baseName (fun _ => rfl) _) .base)
  have text : (markup.text fun block => (Markup.override?
      [("middle", .ofBlocks [("b", outer)]), ("base", .ofBlocks [("b", inner)])] block).map
        Markup.source) =
      "{{$b}}outer{{/b}}" := by
    rw [filled]
    change "{{$b}}" ++ outer.source ++ "{{/b}}" = _
    rw [outerSource]
    rfl
  have succeeds : (Program.compile .dynamic
      (.ofCatalog [("middle", "{{<base}}{{$b}}inner{{/b}}{{/base}}"), ("base", "{{$b}}x{{/b}}")])
      .default ⟨"main", "{{<middle}}{{$b}}outer{{/b}}{{/middle}}"⟩).isOk = true := by
    decide +kernel
  have noLambdas : Schema.dynamic.lambdas = [] := rfl
  have enough : [("middle", Markup.ofBlocks [("b", outer)]),
      ("base", .ofBlocks [("b", inner)])].length ≤ Options.default.maxIncludeDepth := by
    simp [Options.default]
  -- With the template written out, since finding it from its text would unfold the text.
  have nestsBase : markup.Of (Template.mk "base" "{{$b}}x{{/b}}").source := nests
  obtain ⟨program, other, here, there, same⟩ | ⟨error, otherError, failed, -⟩ :=
    compile_inherits noLambdas nestsBase inherits enough (.ofCatalog []) "alone"
  · rw [text] at there
    exact ⟨markup, _, program, other, nests, rfl, text, here, there, same⟩
  · rw [failed] at succeeds
    cases succeeds

end Program

end Stencil
