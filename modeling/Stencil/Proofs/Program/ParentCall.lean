import Stencil.Proofs.Compile.Replaced

/-!
Parent calls as replacement of text. Main statement: a parent call with blocks is compiled like the
inclusion of the parent's text in which the texts of the blocks stand in place of its own.
-/

namespace Stencil

open Lexeme

/-- That a template can have a name: a tag can, and it does not ask for a fragment. -/
structure IsPlainName (name : String) : Prop extends IsTagName name where
  whole : '#' ∉ name.toList

theorem Library.fetch_of_isPlainName {library : Library} {name : String} {stack : TemplateStack}
    {template : Template} (plain : IsPlainName name) (found : library name stack = .ok template)
    (position : Position) : library.fetch name stack position = .ok template := by
  rw [fetch_of_whole plain.whole, found]
  rfl

def ParentCall.write (parent : String) (blocks : List (String × String)) : String :=
  TagKind.openParent.write parent ++
    blocks.foldr (fun block rest =>
      TagKind.openBlock.write block.1 ++ block.2 ++ TagKind.close.write block.1 ++ rest)
      (TagKind.close.write parent)

structure BlockReads (block : String × String) (inner : String × Markup) : Prop where
  name : inner.1 = block.1
  tagName : IsTagName block.1
  whole : chars inner.2.tokens = block.2.toList
  reads : ∀ more, ReadsAll inner.2.tokens ('\x7b' :: '\x7b' :: more)

namespace BlockReads

variable {blocks : List (String × String)} {inners : List (String × Markup)}

theorem readsAll_blockTokens {block : String × String} {inner : String × Markup}
    (block_reads : BlockReads block inner) (rest : List Char) :
    ReadsAll (ParentCall.blockTokens inner) rest := by
  have tagName : IsTagName inner.1 := block_reads.name ▸ block_reads.tagName
  refine .cons (reads_tag (c := '$') rfl tagName _)
    (.append ?_ (.cons (reads_tag (c := '/') rfl tagName _) .nil))
  rw [chars_cons, TagKind.token, TagKind.toList_write]
  exact block_reads.reads _

theorem readsAll_callTokens {parent : String} (named : IsTagName parent)
    (each : List.Forall₂ BlockReads blocks inners) :
    ReadsAll (Compile.callTokens parent inners) [] := by
  refine .cons (reads_tag (c := '<') rfl named _)
    (.append ?_ (.cons (reads_tag (c := '/') rfl named _) .nil))
  generalize chars [TagKind.close.token parent] ++ [] = rest
  induction each with
  | nil => exact .nil
  | cons here _ ih => exact .append (here.readsAll_blockTokens _) ih

theorem chars_callTokens {parent : String} (each : List.Forall₂ BlockReads blocks inners) :
    chars (Compile.callTokens parent inners) = (ParentCall.write parent blocks).toList := by
  have inside : chars (inners.flatMap ParentCall.blockTokens ++ [TagKind.close.token parent]) =
      (blocks.foldr (fun block rest =>
        TagKind.openBlock.write block.1 ++ block.2 ++ TagKind.close.write block.1 ++ rest)
        (TagKind.close.write parent)).toList := by
    induction each with
    | nil => simp [chars, TagKind.token]
    | cons here _ ih =>
        rw [List.flatMap_cons, List.append_assoc, chars_append, ih]
        simp [ParentCall.blockTokens, chars_nil, chars_cons, chars_append, here.name, here.whole,
          TagKind.token]
  rw [Compile.callTokens, chars_cons, inside, ParentCall.write, String.toList_append]
  rfl

theorem lookup_source (each : List.Forall₂ BlockReads blocks inners) (name : String) :
    (inners.lookup name).map Markup.source = blocks.lookup name := by
  induction each with
  | nil => rfl
  | @cons block inner _ _ here _ ih =>
      have text : inner.2.source = block.2 := by
        apply String.toList_injective
        rw [← Markup.chars_tokens, here.whole]
      rw [List.lookup_cons, List.lookup_cons, here.name]
      cases name == block.1 with
      | true => exact congrArg some text
      | false => exact ih

theorem isReadable_lookup (each : List.Forall₂ BlockReads blocks inners) :
    Markup.IsReadable fun name => inners.lookup name := by
  intro name markup found
  dsimp only at found
  induction each with
  | nil => cases found
  | @cons block inner _ _ here _ ih =>
      rw [List.lookup_cons] at found
      cases same : name == inner.1 with
      | true =>
          rw [same] at found
          cases found
          exact here.reads
      | false =>
          rw [same] at found
          exact ih found

end BlockReads

namespace Program

theorem accepts_of_calls {events : List Event}
    (calls : ∀ event ∈ events, ∃ call, event = .call call) : Accepts events := by
  refine ⟨empty "", ?_⟩
  generalize empty "" = program
  induction events generalizing program with
  | nil => rfl
  | cons event rest ih =>
      obtain ⟨⟨call, rfl⟩, further⟩ := List.forall_mem_cons.mp calls
      rw [feed_call]
      exact ih further _

/-- A block that can be given in a parent call: its text nests, and does not run into the tag after
it. -/
structure IsBlock (block : String × String) : Prop where
  tagName : IsTagName block.1
  nests : ∃ markup : Markup, markup.Of block.2
  open_ended : block.2.toList.getLast? ≠ some '\x7b'

theorem blockReads_of {block : String × String} {markup : Markup} (tagName : IsTagName block.1)
    (nests : markup.Of block.2) (open_ended : block.2.toList.getLast? ≠ some '\x7b') :
    BlockReads block (block.1, markup) := by
  obtain ⟨whole, reads⟩ := nests.readsAll
  refine ⟨rfl, tagName, whole, ?_⟩
  intro more
  refine reads.agree (.of_tag ?_ more)
  rw [whole]
  exact open_ended

theorem IsBlock.exists_reads {block : String × String} (isBlock : IsBlock block) :
    ∃ inner, BlockReads block inner := by
  obtain ⟨markup, nests⟩ := isBlock.nests
  exact ⟨_, blockReads_of isBlock.tagName nests isBlock.open_ended⟩

theorem exists_blockReads {blocks : List (String × String)}
    (each : ∀ block ∈ blocks, IsBlock block) : ∃ inners, List.Forall₂ BlockReads blocks inners := by
  induction blocks with
  | nil => exact ⟨[], .nil⟩
  | cons block blocks ih =>
      obtain ⟨here, further⟩ := List.forall_mem_cons.mp each
      obtain ⟨inner, first⟩ := here.exists_reads
      obtain ⟨inners, rest⟩ := ih further
      exact ⟨inner :: inners, .cons first rest⟩

open Compile

/-- A parent's text with tokens in place of the inside of blocks is compiled like the text that has
the text of these tokens there. -/
theorem compileBody_filled (markup : Markup) {setting otherSetting : Setting}
    {body otherBody : Body} {given : List GivenBlock} {blocks : List (String × String)}
    {inners : List (String × Markup)} (noLambdas : setting.schema.lambdas = [])
    (sameSchema : setting.schema = otherSetting.schema) (nests : markup.Of body.source)
    (otherSource : otherBody.source = markup.text (blocks.lookup ·))
    (each : List.Forall₂ BlockReads blocks inners)
    (sameGiven : given.map GivenBlock.unplaced =
      (Compile.givenBlocks inners).map GivenBlock.unplaced)
    (givenHere : body.blocks = [given]) (noneThere : otherBody.blocks = [])
    (start : (State.start body).Alike (.start otherBody))
    (sameIndent : body.indent = otherBody.indent)
    (room : Nat) :
    SameCalls (compileBody setting room body) (compileBody otherSetting room otherBody) := by
  have give : (body.blocks.Give fun name => inners.lookup name) := by
    have alone := GivenBlocks.give_nil.cons sameGiven
    simp only [Option.or_none] at alone
    rw [givenHere]
    exact alone
  have texts : otherBody.source =
      markup.text fun name => (inners.lookup name).map Markup.source := by
    rw [otherSource]
    congr 1
    funext name
    exact (BlockReads.lookup_source each name).symm
  exact compileBody_replaced markup noLambdas sameSchema nests texts give
    (BlockReads.isReadable_lookup each) noneThere start sameIndent room room

theorem compile_inclusion (schema : Schema) (library : Library) (options : Options)
    (root : String) {name : String} (named : IsTagName name) :
    ∃ position, Program.compile schema library options ⟨root, TagKind.inclusion.write name⟩ =
      includeTemplate ⟨schema, library, options⟩
        (nestedAt ⟨schema, library, options⟩ options.maxIncludeDepth)
        (.root schema ⟨root, TagKind.inclusion.write name⟩)
        (.start (.root schema ⟨root, TagKind.inclusion.write name⟩)) .inclusion name position "" []
        >>= fun result => Program.ofEvents root result.1 := by
  have written : chars [TagKind.inclusion.token name] = (TagKind.inclusion.write name).toList := by
    simp [chars, TagKind.token]
  have reads : ReadsAll [TagKind.inclusion.token name] [] :=
    .cons (reads_tag (c := '>') rfl named _) .nil
  obtain ⟨tokens, read, same⟩ := tokenize_of_readsAll reads written root
  obtain ⟨position, compiled⟩ := compileWith_inclusion ⟨schema, library, options⟩
    (nestedAt _ options.maxIncludeDepth) ⟨root, TagKind.inclusion.write name⟩ read same
  exact ⟨position, compile_eq_bind State.atLineStart compiled⟩

theorem compile_call {schema : Schema} (library : Library) (options : Options) (root : String)
    {name : String} {blocks : List (String × String)} {inners : List (String × Markup)}
    (noLambdas : schema.lambdas = []) (named : IsTagName name)
    (each : List.Forall₂ BlockReads blocks inners) (distinct : (blocks.map Prod.fst).Nodup) :
    ∃ position given, given.map GivenBlock.unplaced =
        (Compile.givenBlocks inners).map GivenBlock.unplaced ∧
      Program.compile schema library options ⟨root, ParentCall.write name blocks⟩ =
        includeTemplate ⟨schema, library, options⟩
          (nestedAt ⟨schema, library, options⟩ options.maxIncludeDepth)
          (.root schema ⟨root, ParentCall.write name blocks⟩)
          (.start (.root schema ⟨root, ParentCall.write name blocks⟩)) .parent name position ""
          [given]
          >>= fun result => Program.ofEvents root result.1 := by
  have distinctInners : (inners.map Prod.fst).Nodup := by
    have names : inners.map Prod.fst = blocks.map Prod.fst := by
      clear distinct
      induction each with
      | nil => rfl
      | cons here _ ih => rw [List.map_cons, List.map_cons, here.name, ih]
    rw [names]
    exact distinct
  obtain ⟨tokens, read, same⟩ := tokenize_of_readsAll
    (BlockReads.readsAll_callTokens named each) (BlockReads.chars_callTokens each) root
  obtain ⟨position, given, sameGiven, compiled⟩ :=
    compileWith_parentCall ⟨schema, library, options⟩ (nestedAt _ options.maxIncludeDepth)
      ⟨root, ParentCall.write name blocks⟩ noLambdas distinctInners read same
  exact ⟨position, given, sameGiven, compile_eq_bind State.atLineStart compiled⟩

/-- A parent call is compiled like the inclusion of the parent's text with the texts of the blocks
in place of what its own blocks have inside. -/
theorem compile_parentCall {schema : Schema} (options : Options)
    {root parent included text : String} {library otherLibrary : Library} {markup : Markup}
    {blocks : List (String × String)}
    (noLambdas : schema.lambdas = []) (nests : markup.Of text)
    (areBlocks : ∀ block ∈ blocks, IsBlock block) (distinct : (blocks.map Prod.fst).Nodup)
    (parentName : IsPlainName parent) (includedName : IsPlainName included)
    (acyclic : included ≠ root)
    (found : ∀ stack, library parent stack = .ok ⟨parent, text⟩)
    (otherFound : ∀ stack,
      otherLibrary included stack = .ok ⟨included, markup.text (blocks.lookup ·)⟩) :
    (∃ body,
      Program.compile schema library options ⟨root, ParentCall.write parent blocks⟩ =
        .ok ⟨root, [.inclusion parent body], []⟩ ∧
      Program.compile schema otherLibrary options ⟨root, TagKind.inclusion.write included⟩ =
        .ok ⟨root, [.inclusion included body], []⟩) ∨
    ∃ error otherError,
      Program.compile schema library options ⟨root, ParentCall.write parent blocks⟩ =
        .error error ∧
      Program.compile schema otherLibrary options ⟨root, TagKind.inclusion.write included⟩ =
        .error otherError := by
  obtain ⟨inners, each⟩ := exists_blockReads areBlocks
  obtain ⟨position, given, sameGiven, called⟩ :=
    compile_call library options root noLambdas parentName.toIsTagName each distinct
  obtain ⟨otherPosition, otherCalled⟩ :=
    compile_inclusion schema otherLibrary options root includedName.toIsTagName
  rw [called, otherCalled]
  cases options.maxIncludeDepth with
  | zero => exact .inr ⟨_, _, rfl, rfl⟩
  | succ room =>
      have fetched := Library.fetch_of_isPlainName parentName (found (.root root)) position
      have otherFetched := Library.fetch_of_isPlainName includedName (otherFound (.root root))
        otherPosition
      have outside : (TemplateStack.root root).contains included = false := by
        simp [TemplateStack.contains, TemplateStack.frames, TemplateStack.root, acyclic.symm]
      rw [nestedAt, nestedAt, includeTemplate_found fetched (.inl rfl),
        includeTemplate_found otherFetched (.inr outside)]
      have alike : SameCalls
          (compileBody ⟨schema, library, options⟩ room
            (Body.enter (.root schema ⟨root, ParentCall.write parent blocks⟩)
              (.start (.root schema ⟨root, ParentCall.write parent blocks⟩)) .parent
              ⟨parent, text⟩ "" [given]))
          (compileBody ⟨schema, otherLibrary, options⟩ room
            (Body.enter (.root schema ⟨root, TagKind.inclusion.write included⟩)
              (.start (.root schema ⟨root, TagKind.inclusion.write included⟩)) .inclusion
              ⟨included, markup.text (blocks.lookup ·)⟩ "" [])) := by
        -- One by one, since unifying both bodies at once unfolds how they are compiled.
        refine compileBody_filled markup noLambdas ?_ ?_ ?_ each sameGiven ?_ ?_ ?_ ?_ room
        · rfl
        · exact nests
        · rfl
        · rfl
        · rfl
        · exact ⟨rfl, rfl, rfl, rfl, rfl, rfl, rfl⟩
        · rfl
      revert alike
      generalize nested : compileBody ⟨schema, library, options⟩ room _ = inner
      generalize compileBody ⟨schema, otherLibrary, options⟩ room _ = otherInner
      rintro (_ | @⟨events, atLineStart, calls⟩)
      · exact .inr ⟨_, _, rfl, rfl⟩
      · obtain ⟨lines, last, -, instructions, derives, spells⟩ :=
          compileBody_derives _ _ _ _ _ nested (accepts_of_calls calls)
        have program (name : String) : Program.ofEvents root
            (.call (.enterPartial name) :: events ++ [.call .exitPartial]) =
            .ok ⟨root, [.inclusion name (joined instructions)], []⟩ :=
          ofEvents_spells (Spells.enclose (.inclusion name) spells) root
        exact .inl ⟨joined instructions, program parent, program included⟩

theorem compile_parentCall_block :
    ∃ (markup : Markup) (body : List Instruction),
      markup.Of "{{$b}}x{{/b}}" ∧
      markup.text ([("b", "y")].lookup ·) = "{{$b}}y{{/b}}" ∧
      Program.compile .dynamic (.ofCatalog [("p", "{{$b}}x{{/b}}")]) .default
          ⟨"main", "{{<p}}{{$b}}y{{/b}}{{/p}}"⟩ =
        .ok ⟨"main", [.inclusion "p" body], []⟩ ∧
      Program.compile .dynamic (.ofCatalog [("q", "{{$b}}y{{/b}}")]) .default
          ⟨"main", "{{>q}}"⟩ =
        .ok ⟨"main", [.inclusion "q" body], []⟩ := by
  have read : (tokenize "p" "{{$b}}x{{/b}}").toOption = some
      [⟨.tag .openBlock "b", ⟨"p", 1, 1, "{{$b}}x{{/b}}"⟩, "{{$b}}"⟩,
        ⟨.text "x", ⟨"p", 1, 7, "{{$b}}x{{/b}}"⟩, "x"⟩,
        ⟨.tag .close "b", ⟨"p", 1, 8, "{{$b}}x{{/b}}"⟩, "{{/b}}"⟩,
        ⟨.eof, ⟨"p", 1, 14, "{{$b}}x{{/b}}"⟩, ""⟩] := by
    decide +kernel
  have given : (tokenize "" "y").toOption = some
      [⟨.text "y", ⟨"", 1, 1, "y"⟩, "y"⟩, ⟨.eof, ⟨"", 1, 2, "y"⟩, ""⟩] := by
    decide +kernel
  obtain ⟨markup, nests, filled⟩ : ∃ markup : Markup,
      markup.Of "{{$b}}x{{/b}}" ∧
      markup.text ([("b", "y")].lookup ·) = "{{$b}}y{{/b}}" :=
    ⟨.pair .openBlock "b" _ (.leaf _ rfl .done) _ rfl rfl rfl .done,
      ⟨"p", _, eq_ok_of_toOption read⟩, by decide +kernel⟩
  have block : IsBlock ("b", "y") :=
    ⟨⟨rfl, by decide⟩, ⟨.leaf _ rfl .done, "", _, eq_ok_of_toOption given⟩, by decide⟩
  have succeeds : (Program.compile .dynamic (.ofCatalog [("p", "{{$b}}x{{/b}}")]) .default
      ⟨"main", "{{<p}}{{$b}}y{{/b}}{{/p}}"⟩).isOk = true := by
    decide +kernel
  have noLambdas : Schema.dynamic.lambdas = [] := rfl
  have acyclic : "q" ≠ "main" := by decide
  have parentName : IsPlainName "p" := ⟨⟨rfl, by decide⟩, by decide⟩
  have includedName : IsPlainName "q" := ⟨⟨rfl, by decide⟩, by decide⟩
  have found : ∀ stack, Library.ofCatalog [("p", "{{$b}}x{{/b}}")] "p" stack =
      .ok ⟨"p", "{{$b}}x{{/b}}"⟩ := fun _ => rfl
  have otherFound : ∀ stack, Library.ofCatalog [("q", "{{$b}}y{{/b}}")] "q" stack =
      .ok ⟨"q", markup.text ([("b", "y")].lookup ·)⟩ := fun _ => filled ▸ rfl
  obtain ⟨body, here, there⟩ | ⟨error, otherError, failed, -⟩ :=
    compile_parentCall .default noLambdas nests (List.forall_mem_singleton.mpr block) (by simp)
      parentName includedName acyclic found otherFound
  · exact ⟨markup, body, nests, filled, here, there⟩
  · cases (congrArg Except.isOk failed).symm.trans succeeds

end Program

end Stencil
