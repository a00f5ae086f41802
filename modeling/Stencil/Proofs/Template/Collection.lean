import Stencil.Proofs.Template.WellNested
import Stencil.Template.Inheritance

/-!
The tokens of a parent call. A call keeps what stands in the outermost blocks among them. Main
statement: a call is closed by its own end tag behind well nested tokens that have no two outermost
blocks of one name, and has been given these blocks then. It fails at the first token that rules
this out.
-/

namespace Stencil

namespace Token

/-- Well nested tokens, and the outermost blocks among them with what they have inside, in order.
Blocks inside other constructs are not among these. -/
inductive Gives : List Token → List GivenBlock → Prop where
  | nil : Gives [] []
  | other {token : Token} {rest : List Token} {blocks : List GivenBlock} :
      token.opened? = none → token.closed? = none → Gives rest blocks →
      Gives (token :: rest) blocks
  | block {opening closing : Token} {name : String} {inside rest : List Token}
      {blocks : List GivenBlock} : opening.opened? = some name → opening.opensBlock = true →
      closing.closed? = some name → WellNested inside → Gives rest blocks →
      Gives (opening :: (inside ++ closing :: rest)) (⟨name, inside⟩ :: blocks)
  | construct {opening closing : Token} {name : String} {inside rest : List Token}
      {blocks : List GivenBlock} : opening.opened? = some name → opening.opensBlock = false →
      closing.closed? = some name → WellNested inside → Gives rest blocks →
      Gives (opening :: (inside ++ closing :: rest)) blocks

/-- Tokens that give blocks but for some opening tags, outermost first, whose end tags are yet to
come. If the outermost of them opens a block, this is the last of the blocks, with what it has
inside so far. -/
inductive GivesSoFar : List Token → List Token → List GivenBlock → Prop where
  | between {tokens : List Token} {blocks : List GivenBlock} : Gives tokens blocks →
      GivesSoFar tokens [] blocks
  | block {before inside opens : List Token} {opening : Token} {name : String}
      {blocks : List GivenBlock} : Gives before blocks → opening.opened? = some name →
      opening.opensBlock = true → LeavesOpen inside opens →
      GivesSoFar (before ++ opening :: inside) (opening :: opens) (blocks ++ [⟨name, inside⟩])
  | construct {before inside opens : List Token} {opening : Token} {name : String}
      {blocks : List GivenBlock} : Gives before blocks → opening.opened? = some name →
      opening.opensBlock = false → LeavesOpen inside opens →
      GivesSoFar (before ++ opening :: inside) (opening :: opens) blocks

variable {token opening closing : Token} {tokens before inside opens : List Token} {name : String}
  {blocks more : List GivenBlock}

theorem Gives.append (first : Gives before blocks) (second : Gives tokens more) :
    Gives (before ++ tokens) (blocks ++ more) := by
  induction first with
  | nil => exact second
  | other noOpening noEnd _ ih => exact .other noOpening noEnd ih
  | block opened isBlock closes nested _ ih =>
      rw [List.cons_append, List.append_assoc, List.cons_append]
      exact .block opened isBlock closes nested ih
  | construct opened notBlock closes nested _ ih =>
      rw [List.cons_append, List.append_assoc, List.cons_append]
      exact .construct opened notBlock closes nested ih

theorem LeavesOpen.next (leaves : LeavesOpen inside opens) (token : Token) :
    (∃ further, LeavesOpen (inside ++ [token]) further) ∨
      ∃ name, token.closed? = .some name ∧ (opens.filterMap opened?).getLast? ≠ .some name := by
  cases closes : token.closed? with
  | none =>
      left
      cases opened : token.opened? with
      | none => exact ⟨opens, leaves.append_nested (.one opened closes)⟩
      | some name => exact ⟨opens ++ [token], leaves.append_opening opened⟩
  | some name =>
      obtain rfl | ⟨outer, innermost, rfl⟩ := List.eq_nil_or_concat' opens
      · exact .inr ⟨name, rfl, nofun⟩
      · obtain ⟨expected, opened⟩ := leaves.opened
          (show innermost ∈ outer ++ [innermost] by simp)
        by_cases same : expected = name
        · subst same
          exact .inl ⟨outer, leaves.append_closing opened closes⟩
        · exact .inr ⟨name, rfl, by simp [opened, same]⟩

theorem LeavesOpen.closes_or (leaves : LeavesOpen inside opens) {found : String}
    (stuck : (opens.filterMap opened?).getLast? ≠ .some found)
    (opened : opening.opened? = .some name) :
    (opens = [] ∧ WellNested inside ∧ name = found) ∨
      ∃ expected, ((opening :: opens).filterMap opened?).getLast? = .some expected ∧
        expected ≠ found := by
  rw [List.filterMap_cons_some opened, List.getLast?_cons]
  cases leaves with
  | none nested =>
      by_cases same : name = found
      · exact .inl ⟨rfl, nested, same⟩
      · exact .inr ⟨name, rfl, same⟩
  | some _ outermost _ =>
      right
      rw [List.filterMap_cons_some outermost, List.getLast?_cons] at stuck ⊢
      exact ⟨_, rfl, fun same => stuck (congrArg Option.some same)⟩

end Token

namespace ParentCall

inductive Collects : ParentCall → List Token → ParentCall → Prop where
  | nil {call : ParentCall} : Collects call [] call
  | cons {call next last : ParentCall} {token : Token} {tokens : List Token} :
      call.push token = .ok (next, false) → Collects next tokens last →
      Collects call (token :: tokens) last

variable {call next last : ParentCall} {token opening closing : Token}
  {front more tokens before inside opens : List Token} {name parent : String} {position : Position}
  {blocks : List GivenBlock} {error : NestingError}

theorem Collects.append (first : Collects call front next) (second : Collects next more last) :
    Collects call (front ++ more) last := by
  induction first with
  | nil => exact second
  | cons taken _ ih => exact .cons taken (ih second)

theorem Collects.single (taken : call.push token = .ok (next, false)) :
    Collects call [token] next := .cons taken .nil

theorem Collects.of_append (collects : Collects call (front ++ more) last) :
    ∃ next, Collects call front next ∧ Collects next more last := by
  induction front generalizing call with
  | nil => exact ⟨call, .nil, collects⟩
  | cons token front ih =>
      obtain _ | ⟨taken, further⟩ := collects
      obtain ⟨next, first, second⟩ := ih further
      exact ⟨next, .cons taken first, second⟩

def withOpen (call : ParentCall) (names : List String) : ParentCall :=
  { call with openNames := names }

@[simp] theorem withOpen_openNames (call : ParentCall) (names : List String) :
    (call.withOpen names).openNames = names := rfl

@[simp] theorem withOpen_withOpen (call : ParentCall) (names others : List String) :
    (call.withOpen names).withOpen others = call.withOpen others := rfl

theorem withOpen_self (call : ParentCall) : call.withOpen call.openNames = call := rfl

/-! What is kept of tokens, one after another. -/

@[simp] theorem keep_openNames (call : ParentCall) (token : Token) :
    (call.keep token).openNames = call.openNames := by
  unfold keep
  split <;> rfl

@[simp] theorem keep_withOpen (call : ParentCall) (names : List String) (token : Token) :
    (call.withOpen names).keep token = (call.keep token).withOpen names := by
  obtain ⟨parent, position, openNames, _ | _, _ | ⟨block, earlier⟩⟩ := call <;> rfl

theorem keep_outside (between : call.inBlock = false) (token : Token) : call.keep token = call := by
  unfold keep
  rw [between]

@[simp] theorem keepAll_openNames (call : ParentCall) (tokens : List Token) :
    (tokens.foldl keep call).openNames = call.openNames := by
  induction tokens generalizing call with
  | nil => rfl
  | cons token tokens ih => rw [List.foldl_cons, ih, keep_openNames]

@[simp] theorem keepAll_withOpen (call : ParentCall) (names : List String) (tokens : List Token) :
    tokens.foldl keep (call.withOpen names) = (tokens.foldl keep call).withOpen names := by
  induction tokens generalizing call with
  | nil => rfl
  | cons token tokens ih => rw [List.foldl_cons, List.foldl_cons, keep_withOpen, ih]

theorem keepAll_outside (between : call.inBlock = false) (tokens : List Token) :
    tokens.foldl keep call = call := by
  induction tokens with
  | nil => rfl
  | cons token tokens ih => rw [List.foldl_cons, keep_outside between, ih]

def reading (call : ParentCall) (block : String) (kept : List Token) : ParentCall :=
  { call with inBlock := true, blocks := ⟨block, kept⟩ :: call.blocks }

theorem keepAll_reading (call : ParentCall) (block : String) (kept tokens : List Token) :
    tokens.foldl keep (call.reading block kept) = call.reading block (kept ++ tokens) := by
  induction tokens generalizing kept with
  | nil => rw [List.append_nil, List.foldl_nil]
  | cons token tokens ih =>
      have here : (call.reading block kept).keep token = call.reading block (kept ++ [token]) := rfl
      rw [List.foldl_cons, here, ih, List.append_assoc, List.singleton_append]

/-! What a call does with each kind of token. -/

theorem push_other (noOpening : token.opened? = none) (noEnd : token.closed? = none)
    (inside : token.isEof = false) (call : ParentCall) :
    call.push token = .ok (call.keep token, false) := by
  obtain ⟨kind, position, raw⟩ := token
  cases kind with
  | tag kind name =>
      cases kind <;> first | rfl | cases noOpening; done | cases noEnd
  | eof => cases inside
  | _ => rfl

theorem push_eof (ending : token.isEof = true) (call : ParentCall) :
    call.push token = .error (.unclosed call.parent) := by
  obtain ⟨kind, position, raw⟩ := token
  cases kind <;> first | rfl | cases ending

theorem push_opened (opened : token.opened? = some name) (call : ParentCall) :
    call.push token =
      if token.opensBlock = true ∧ call.openNames.length = 1 then
        if call.blocks.any (·.name = name) then .error (.duplicateBlock call.parent name)
        else .ok ((call.reading name []).withOpen (name :: call.openNames), false)
      else .ok ((call.withOpen (name :: call.openNames)).keep token, false) := by
  obtain ⟨kind, position, raw⟩ := token
  cases kind with
  | tag kind other =>
      cases kind
      case openBlock =>
        cases opened
        simp only [push, TagKind.isOpening, if_true, openTag, Token.opensBlock, true_and]
        split
        · split <;> rfl
        · rfl
      all_goals first | cases opened; done | (cases opened; rfl)
  | _ => cases opened

theorem push_opening (call : ParentCall) (opened : token.opened? = some name)
    (inner : token.opensBlock = false ∨ 2 ≤ call.openNames.length) :
    call.push token = .ok ((call.keep token).withOpen (name :: call.openNames), false) := by
  rw [push_opened opened, if_neg, keep_withOpen]
  rintro ⟨isBlock, single⟩
  obtain notBlock | deep := inner
  · cases isBlock.symm.trans notBlock
  · omega

theorem push_closed (closes : token.closed? = some name) (call : ParentCall) :
    call.push token = call.closeTag name token := by
  rw [push, Token.closed?_eq_some_iff.mp closes]

theorem push_closing (call : ParentCall) {outer : List String} (closes : token.closed? = some name)
    (innermost : call.openNames = name :: outer) (deep : 2 ≤ outer.length) :
    call.push token = .ok ((call.keep token).withOpen outer, false) := by
  obtain ⟨first, second, rest, rfl⟩ : ∃ first second rest, outer = first :: second :: rest := by
    match outer, deep with
    | first :: second :: rest, _ => exact ⟨first, second, rest, rfl⟩
  rw [← keep_withOpen, push_closed closes, closeTag, innermost]
  simp [withOpen]

theorem push_closing_outermost (call : ParentCall) {parent : String}
    (closes : token.closed? = some name) (innermost : call.openNames = [name, parent]) :
    call.push token = .ok ({ call.withOpen [parent] with inBlock := false }, false) := by
  rw [push_closed closes, closeTag, innermost]
  cases inBlock : call.inBlock with
  | true => simp [withOpen]
  | false => simp [withOpen, keep, inBlock]

theorem push_closing_call (closes : token.closed? = some name) (single : call.openNames = [name]) :
    call.push token = .ok (call.withOpen [], true) := by
  rw [push_closed closes, closeTag, single]
  simp [withOpen]

theorem push_mismatched {expected : String} (closes : token.closed? = some name)
    (innermost : call.openNames.head? = some expected) (other : expected ≠ name) :
    call.push token = .error (.mismatchedClose expected name) := by
  rw [push_closed closes, closeTag, List.headD_eq_head?_getD, innermost, Option.getD_some,
    if_pos other]

/-! What a call does with tokens that are well nested. -/

theorem collects_wellNested (call : ParentCall) (nested : Token.WellNested tokens)
    (within : ∀ token ∈ tokens, token.isEof = false) (deep : 2 ≤ call.openNames.length) :
    Collects call tokens (tokens.foldl keep call) := by
  induction nested generalizing call with
  | nil => exact .nil
  | @other token rest noOpening noEnd _ ih =>
      obtain ⟨here, further⟩ := List.forall_mem_cons.mp within
      exact .cons (push_other noOpening noEnd here call) (ih _ further (by simpa using deep))
  | @enclose opening closing name inside rest opened closes _ _ ihInside ihRest =>
      obtain ⟨-, within⟩ := List.forall_mem_cons.mp within
      obtain ⟨inner, outer⟩ := List.forall_mem_append.mp within
      have entered :
          2 ≤ ((call.keep opening).withOpen (name :: call.openNames)).openNames.length := by
        rw [withOpen_openNames, List.length_cons]
        omega
      have shut := push_closing ((inside.foldl keep (call.keep opening)).withOpen
        (name :: call.openNames)) closes rfl deep
      have left : ((inside.foldl keep (call.keep opening)).keep closing).withOpen call.openNames =
          (opening :: inside ++ [closing]).foldl keep call := by
        have names : ((inside.foldl keep (call.keep opening)).keep closing).openNames =
            call.openNames := by simp
        rw [← names, withOpen_self]
        simp
      rw [keep_withOpen, withOpen_withOpen, left] at shut
      have inside' := ihInside _ inner entered
      rw [keepAll_withOpen] at inside'
      have rest := ihRest ((opening :: inside ++ [closing]).foldl keep call)
        (List.forall_mem_cons.mp outer).2 (by simpa using deep)
      rw [← List.foldl_append] at rest
      have whole := Collects.cons (push_opening call opened (.inr deep))
        (inside'.append (.cons shut rest))
      simpa using whole

theorem collects_leavesOpen (call : ParentCall) (leaves : Token.LeavesOpen tokens opens)
    (within : ∀ token ∈ tokens, token.isEof = false) (deep : 2 ≤ call.openNames.length) :
    Collects call tokens ((tokens.foldl keep call).withOpen
      ((opens.filterMap Token.opened?).reverse ++ call.openNames)) := by
  induction leaves generalizing call with
  | none nested =>
      have names := keepAll_openNames call
      have collects := collects_wellNested call nested within deep
      rwa [List.filterMap_nil, List.reverse_nil, List.nil_append, ← names, withOpen_self]
  | @some before inside opens opening name nested opened _ ih =>
      obtain ⟨first, within⟩ := List.forall_mem_append.mp within
      have entered : 2 ≤ (((before.foldl keep call).keep opening).withOpen
          (name :: call.openNames)).openNames.length := by
        rw [withOpen_openNames, List.length_cons]
        omega
      have opening' := push_opening (before.foldl keep call) opened
        (.inr (by rwa [keepAll_openNames]))
      rw [keepAll_openNames] at opening'
      have whole := (collects_wellNested call nested first deep).append
        (.cons opening' (ih _ (List.forall_mem_cons.mp within).2 entered))
      simpa [List.filterMap_cons, opened] using whole

theorem collects_block (call : ParentCall) (opened : opening.opened? = some name)
    (isBlock : opening.opensBlock = true) (leaves : Token.LeavesOpen inside opens)
    (within : ∀ token ∈ inside, token.isEof = false) (single : call.openNames = [call.parent])
    (fresh : ∀ other ∈ call.blocks, other.name ≠ name) :
    Collects call (opening :: inside) ((call.reading name inside).withOpen
      ((opens.filterMap Token.opened?).reverse ++ [name, call.parent])) := by
  have unused : call.blocks.any (·.name = name) = false := by simpa using fresh
  have enters : call.push opening =
      .ok ((call.reading name []).withOpen [name, call.parent], false) := by
    simp [push_opened opened, isBlock, single, unused]
  have reads := collects_leavesOpen ((call.reading name []).withOpen [name, call.parent]) leaves
    within (Nat.le_refl 2)
  rw [keepAll_withOpen, keepAll_reading, List.nil_append, withOpen_withOpen] at reads
  exact .cons enters reads

theorem collects_construct (call : ParentCall) (opened : opening.opened? = some name)
    (notBlock : opening.opensBlock = false) (leaves : Token.LeavesOpen inside opens)
    (within : ∀ token ∈ inside, token.isEof = false) (single : call.openNames = [call.parent])
    (between : call.inBlock = false) :
    Collects call (opening :: inside) (call.withOpen
      ((opens.filterMap Token.opened?).reverse ++ [name, call.parent])) := by
  have enters : call.push opening = .ok (call.withOpen [name, call.parent], false) := by
    rw [push_opening call opened (.inl notBlock), keep_outside between, single]
  have passes := collects_leavesOpen (call.withOpen [name, call.parent]) leaves within
    (Nat.le_refl 2)
  rw [keepAll_withOpen, keepAll_outside between, withOpen_withOpen] at passes
  exact .cons enters passes

theorem collects_gives (call : ParentCall) (gives : Token.Gives tokens blocks)
    (within : ∀ token ∈ tokens, token.isEof = false) (single : call.openNames = [call.parent])
    (between : call.inBlock = false) (distinct : (blocks.map GivenBlock.name).Nodup)
    (fresh : ∀ other ∈ call.blocks, other.name ∉ blocks.map GivenBlock.name) :
    Collects call tokens { call with blocks := blocks.reverse ++ call.blocks } := by
  induction gives generalizing call with
  | nil => exact .nil
  | @other token rest blocks noOpening noEnd _ ih =>
      obtain ⟨here, further⟩ := List.forall_mem_cons.mp within
      refine .cons (push_other noOpening noEnd here call) ?_
      rw [keep_outside between]
      exact ih call further single between distinct fresh
  | @block opening closing name inside rest blocks opened isBlock closes nested _ ih =>
      obtain ⟨-, within⟩ := List.forall_mem_cons.mp within
      obtain ⟨inner, outer⟩ := List.forall_mem_append.mp within
      obtain ⟨here, apart⟩ := List.nodup_cons.mp distinct
      have unused : ∀ other ∈ call.blocks, other.name ≠ name := fun other member same =>
        fresh other member (List.mem_cons.mpr (.inl same))
      have reads := collects_block call opened isBlock (.none nested) inner single unused
      have leaves :=
        push_closing_outermost ((call.reading name inside).withOpen [name, call.parent])
        closes rfl
      have left : { ((call.reading name inside).withOpen [name, call.parent]).withOpen [call.parent]
          with inBlock := false } = { call with blocks := ⟨name, inside⟩ :: call.blocks } := by
        simp [withOpen, reading, single, between]
      rw [left] at leaves
      have others : ∀ other ∈ (⟨name, inside⟩ :: call.blocks : List GivenBlock),
          other.name ∉ blocks.map GivenBlock.name := by
        refine List.forall_mem_cons.mpr ⟨here, fun other member again => ?_⟩
        exact fresh other member (List.mem_cons_of_mem _ again)
      have later := ih { call with blocks := ⟨name, inside⟩ :: call.blocks }
        (List.forall_mem_cons.mp outer).2 single between apart others
      simpa using reads.append (.cons leaves later)
  | @construct opening closing name inside rest blocks opened notBlock closes nested _ ih =>
      obtain ⟨-, within⟩ := List.forall_mem_cons.mp within
      obtain ⟨inner, outer⟩ := List.forall_mem_append.mp within
      have passes :=
        collects_construct call opened notBlock (.none nested) inner single between
      have leaves := push_closing_outermost (call.withOpen [name, call.parent]) closes rfl
      have left : { (call.withOpen [name, call.parent]).withOpen [call.parent]
          with inBlock := false } = call := by
        rw [withOpen_withOpen, ← single, withOpen_self, ← between]
      rw [left] at leaves
      have later := ih call (List.forall_mem_cons.mp outer).2 single between distinct fresh
      exact passes.append (.cons leaves later)

def behind (parent : String) (position : Position) (opens : List Token) (blocks : List GivenBlock) :
    ParentCall where
  parent
  position
  openNames := (parent :: opens.filterMap Token.opened?).reverse
  inBlock := opens.head?.any Token.opensBlock
  blocks := blocks.reverse

theorem behind_givenBlocks (parent : String) (position : Position) (opens : List Token)
    (blocks : List GivenBlock) : (behind parent position opens blocks).givenBlocks = blocks :=
  List.reverse_reverse blocks

theorem withOpen_givenBlocks (call : ParentCall) (names : List String) :
    (call.withOpen names).givenBlocks = call.givenBlocks := rfl

theorem collects_givesSoFar (parent : String) (position : Position)
    (gives : Token.GivesSoFar tokens opens blocks)
    (within : ∀ token ∈ tokens, token.isEof = false)
    (distinct : (blocks.map GivenBlock.name).Nodup) :
    Collects (start parent position) tokens (behind parent position opens blocks) := by
  have between {before : List Token} {blocks : List GivenBlock} (gives : Token.Gives before blocks)
      (within : ∀ token ∈ before, token.isEof = false)
      (distinct : (blocks.map GivenBlock.name).Nodup) :
      Collects (start parent position) before (behind parent position [] blocks) := by
    have collects := collects_gives (start parent position) gives within rfl rfl distinct
      (by simp [start])
    simpa [start, behind] using collects
  cases gives with
  | between gives => exact between gives within distinct
  | @block before inside opens opening name blocks gives opened isBlock leaves =>
      obtain ⟨first, within⟩ := List.forall_mem_append.mp within
      rw [List.map_append, List.map_singleton] at distinct
      obtain ⟨apart, -, fresh⟩ := List.nodup_append.mp distinct
      have unused : ∀ other ∈ (behind parent position [] blocks).blocks, other.name ≠ name := by
        intro other member
        exact fresh _ (List.mem_map_of_mem (List.mem_reverse.mp member)) _
          (List.mem_singleton_self name)
      have reads := collects_block (behind parent position [] blocks) opened isBlock leaves
        (List.forall_mem_cons.mp within).2 rfl unused
      have whole := (between gives first apart).append reads
      simpa [behind, reading, withOpen, opened, isBlock] using whole
  | @construct before inside opens opening name blocks gives opened notBlock leaves =>
      obtain ⟨first, within⟩ := List.forall_mem_append.mp within
      have passes := collects_construct (behind parent position [] blocks) opened notBlock leaves
        (List.forall_mem_cons.mp within).2 rfl rfl
      have whole := (between gives first distinct).append passes
      simpa [behind, withOpen, opened, notBlock] using whole

/-- What keeps a call from taking in a token, given what is open in the call and which blocks it has
been given. -/
inductive Fault (parent : String) (opens : List Token) (blocks : List GivenBlock) (token : Token) :
    NestingError → Prop where
  | mismatched {name expected : String} : token.closed? = some name →
      (opens.filterMap Token.opened?).getLast?.getD parent = expected → expected ≠ name →
      Fault parent opens blocks token (.mismatchedClose expected name)
  | duplicate {name : String} : opens = [] → token.opened? = some name → token.opensBlock = true →
      name ∈ blocks.map GivenBlock.name →
      Fault parent opens blocks token (.duplicateBlock parent name)
  | unclosed : token.isEof = true → Fault parent opens blocks token (.unclosed parent)

theorem Fault.push (fault : Fault parent opens blocks token error) (position : Position) :
    (behind parent position opens blocks).push token = .error error := by
  cases fault with
  | mismatched closes innermost other =>
      refine push_mismatched closes ?_ other
      rw [behind, List.head?_reverse, List.getLast?_cons, ← innermost]
  | @duplicate name none opened isBlock again =>
      subst none
      have used : (behind parent position [] blocks).blocks.any (·.name = name) = true := by
        simpa [behind] using again
      rw [push_opened opened, if_pos ⟨isBlock, rfl⟩, if_pos used]
      rfl
  | unclosed ending => exact push_eof ending _

theorem gives_next (gives : Token.Gives tokens blocks)
    (distinct : (blocks.map GivenBlock.name).Nodup) (parent : String) (token : Token) :
    (∃ further more, Token.GivesSoFar (tokens ++ [token]) further more ∧
      (more.map GivenBlock.name).Nodup) ∨
    token.closed? = some parent ∨ ∃ error, Fault parent [] blocks token error := by
  cases closes : token.closed? with
  | some name =>
      right
      by_cases same : parent = name
      · exact .inl (by rw [same])
      · exact .inr ⟨_, .mismatched closes rfl same⟩
  | none =>
      cases opened : token.opened? with
      | none =>
          have whole := gives.append (.other opened closes .nil)
          rw [List.append_nil] at whole
          exact .inl ⟨[], blocks, .between whole, distinct⟩
      | some name =>
          cases isBlock : token.opensBlock with
          | false =>
              exact .inl ⟨[token], blocks, .construct gives opened isBlock (.none .nil), distinct⟩
          | true =>
              by_cases again : name ∈ blocks.map GivenBlock.name
              · exact .inr (.inr ⟨_, .duplicate rfl opened isBlock again⟩)
              · refine .inl ⟨[token], blocks ++ [⟨name, []⟩],
                  .block gives opened isBlock (.none .nil), ?_⟩
                rw [List.map_append, List.map_singleton]
                refine List.nodup_append.mpr ⟨distinct, by simp, ?_⟩
                intro other member last here same
                rw [same, List.mem_singleton.mp here] at member
                exact again member

theorem givesSoFar_next (gives : Token.GivesSoFar tokens opens blocks)
    (distinct : (blocks.map GivenBlock.name).Nodup) (parent : String) (token : Token) :
    (∃ further more, Token.GivesSoFar (tokens ++ [token]) further more ∧
      (more.map GivenBlock.name).Nodup ∧ token.isEof = false) ∨
    (opens = [] ∧ token.closed? = some parent) ∨
    ∃ error, Fault parent opens blocks token error := by
  cases ending : token.isEof with
  | true => exact .inr (.inr ⟨_, .unclosed ending⟩)
  | false =>
      cases gives with
      | between gives =>
          obtain ⟨further, more, next, others⟩ | closes | fault :=
            gives_next gives distinct parent token
          · exact .inl ⟨further, more, next, others, rfl⟩
          · exact .inr (.inl ⟨rfl, closes⟩)
          · exact .inr (.inr fault)
      | @block before inside opens opening name blocks gives opened isBlock leaves =>
          rw [List.append_assoc, List.cons_append]
          rw [List.map_append, List.map_singleton] at distinct
          obtain ⟨further, more⟩ | ⟨found, closes, stuck⟩ := leaves.next token
          · refine .inl ⟨opening :: further, blocks ++ [⟨name, inside ++ [token]⟩],
              .block gives opened isBlock more, ?_, rfl⟩
            rwa [List.map_append, List.map_singleton]
          · obtain ⟨rfl, nested, rfl⟩ | ⟨expected, innermost, other⟩ :=
              leaves.closes_or stuck opened
            · refine .inl ⟨[], blocks ++ [⟨name, inside⟩],
                .between (gives.append (.block opened isBlock closes nested .nil)), ?_, rfl⟩
              rwa [List.map_append, List.map_singleton]
            · exact .inr (.inr ⟨_, .mismatched closes (by rw [innermost]; rfl) other⟩)
      | @construct before inside opens opening name blocks gives opened notBlock leaves =>
          rw [List.append_assoc, List.cons_append]
          obtain ⟨further, more⟩ | ⟨found, closes, stuck⟩ := leaves.next token
          · exact .inl ⟨opening :: further, blocks, .construct gives opened notBlock more, distinct,
              rfl⟩
          · obtain ⟨rfl, nested, rfl⟩ | ⟨expected, innermost, other⟩ :=
              leaves.closes_or stuck opened
            · have whole := gives.append (.construct opened notBlock closes nested .nil)
              rw [List.append_nil] at whole
              exact .inl ⟨[], blocks, .between whole, distinct, rfl⟩
            · exact .inr (.inr ⟨_, .mismatched closes (by rw [innermost]; rfl) other⟩)

theorem Collects.unique (first : Collects call tokens last) (second : Collects call tokens next) :
    last = next := by
  induction first with
  | nil =>
      cases second
      rfl
  | cons taken _ ih =>
      obtain _ | ⟨taken', further⟩ := second
      cases taken.symm.trans taken'
      exact ih further

theorem push_behind {further : List Token} {given : List GivenBlock}
    (gives : Token.GivesSoFar tokens opens blocks)
    (within : ∀ token ∈ tokens, token.isEof = false)
    (distinct : (blocks.map GivenBlock.name).Nodup)
    (gives' : Token.GivesSoFar (tokens ++ [token]) further given)
    (distinct' : (given.map GivenBlock.name).Nodup) (inside : token.isEof = false) :
    (behind parent position opens blocks).push token =
      .ok (behind parent position further given, false) := by
  have within' : ∀ t ∈ tokens ++ [token], t.isEof = false :=
    List.forall_mem_append.mpr ⟨within, List.forall_mem_singleton.mpr inside⟩
  obtain ⟨middle, first, second⟩ :=
    (collects_givesSoFar parent position gives' within' distinct').of_append
  obtain rfl := first.unique (collects_givesSoFar parent position gives within distinct)
  obtain _ | ⟨taken, ⟨⟩⟩ := second
  exact taken

/-- A call takes in tokens exactly if they give blocks of different names so far, and is left with
these blocks. -/
theorem collects_start_iff : Collects (start parent position) tokens call ↔
    ∃ opens blocks, Token.GivesSoFar tokens opens blocks ∧ (blocks.map GivenBlock.name).Nodup ∧
      (∀ token ∈ tokens, token.isEof = false) ∧ call = behind parent position opens blocks := by
  constructor
  · intro collects
    induction tokens using List.reverseRecOn generalizing call with
    | nil =>
        cases collects
        exact ⟨[], [], .between .nil, List.nodup_nil, List.forall_mem_nil _, rfl⟩
    | append_singleton tokens token ih =>
        obtain ⟨middle, first, second⟩ := collects.of_append
        obtain _ | ⟨taken, ⟨⟩⟩ := second
        obtain ⟨opens, blocks, gives, distinct, within, rfl⟩ := ih first
        obtain ⟨further, more, gives', distinct', inside⟩ | ⟨rfl, closes⟩ | ⟨error, fault⟩ :=
          givesSoFar_next gives distinct parent token
        · cases (push_behind gives within distinct gives' distinct' inside).symm.trans taken
          exact ⟨further, more, gives', distinct',
            List.forall_mem_append.mpr ⟨within, List.forall_mem_singleton.mpr inside⟩, rfl⟩
        · cases (push_closing_call closes rfl).symm.trans taken
        · cases (fault.push position).symm.trans taken
  · rintro ⟨opens, blocks, gives, distinct, within, rfl⟩
    exact collects_givesSoFar parent position gives within distinct

theorem exists_end (call : ParentCall) (ending : ∃ token ∈ tokens, token.isEof = true) :
    ∃ before token after next, tokens = before ++ token :: after ∧ Collects call before next ∧
      ((∃ last, next.push token = .ok (last, true)) ∨ ∃ error, next.push token = .error error) := by
  induction tokens generalizing call with
  | nil => simp at ending
  | cons token tokens ih =>
      cases pushed : call.push token with
      | error error => exact ⟨[], token, tokens, call, rfl, .nil, .inr ⟨error, pushed⟩⟩
      | ok result =>
          obtain ⟨next, _ | _⟩ := result
          · have later : ∃ token ∈ tokens, token.isEof = true := by
              obtain ⟨last, member, isEof⟩ := ending
              obtain rfl | member := List.mem_cons.mp member
              · cases (push_eof isEof call).symm.trans pushed
              · exact ⟨last, member, isEof⟩
            obtain ⟨before, stop, after, reached, rfl, collects, ends⟩ := ih next later
            exact ⟨token :: before, stop, after, reached, rfl, .cons pushed collects, ends⟩
          · exact ⟨[], token, tokens, call, rfl, .nil, .inl ⟨next, pushed⟩⟩

/-- A call is closed by its own end tag behind well nested tokens whose outermost blocks have
different names, and has been given these blocks then, in order, each with what it has inside. It
fails at the first token that rules this out: at an end tag that does not have the innermost open
name, at an outermost block of a name that there has been before, or at the end of the template. And
one of these it comes to. -/
theorem start_outcome (parent : String) (position : Position) :
    (∀ before token blocks,
      (∃ call last, Collects (start parent position) before call ∧
        call.push token = .ok (last, true) ∧ last.givenBlocks = blocks) ↔
      token.closed? = some parent ∧ Token.Gives before blocks ∧
        (blocks.map GivenBlock.name).Nodup ∧ ∀ t ∈ before, t.isEof = false) ∧
    (∀ before token error,
      (∃ call, Collects (start parent position) before call ∧ call.push token = .error error) ↔
      ∃ opens blocks, Token.GivesSoFar before opens blocks ∧ (blocks.map GivenBlock.name).Nodup ∧
        (∀ t ∈ before, t.isEof = false) ∧ Fault parent opens blocks token error) ∧
    ∀ tokens, (∃ t ∈ tokens, t.isEof = true) →
      ∃ before token after call, tokens = before ++ token :: after ∧
        Collects (start parent position) before call ∧
        ((∃ last, call.push token = .ok (last, true)) ∨
          ∃ error, call.push token = .error error) := by
  refine ⟨?_, ?_, fun tokens => exists_end (start parent position)⟩
  · intro before token blocks
    constructor
    · rintro ⟨call, last, collects, pushed, rfl⟩
      obtain ⟨opens, given, gives, distinct, within, rfl⟩ := collects_start_iff.mp collects
      obtain ⟨further, more, gives', distinct', inside⟩ | ⟨rfl, closes⟩ | ⟨error, fault⟩ :=
        givesSoFar_next gives distinct parent token
      · cases (push_behind gives within distinct gives' distinct' inside).symm.trans pushed
      · cases (push_closing_call closes rfl).symm.trans pushed
        rw [withOpen_givenBlocks, behind_givenBlocks]
        cases gives with
        | between gives => exact ⟨closes, gives, distinct, within⟩
      · cases (fault.push position).symm.trans pushed
    · rintro ⟨closes, gives, distinct, within⟩
      have collects := collects_givesSoFar parent position
        (.between gives) within distinct
      exact ⟨_, _, collects, push_closing_call closes rfl,
        behind_givenBlocks parent position [] blocks⟩
  · intro before token error
    constructor
    · rintro ⟨call, collects, pushed⟩
      obtain ⟨opens, given, gives, distinct, within, rfl⟩ := collects_start_iff.mp collects
      obtain ⟨further, more, gives', distinct', inside⟩ | ⟨rfl, closes⟩ | ⟨problem, fault⟩ :=
        givesSoFar_next gives distinct parent token
      · cases (push_behind gives within distinct gives' distinct' inside).symm.trans pushed
      · cases (push_closing_call closes rfl).symm.trans pushed
      · cases (fault.push position).symm.trans pushed
        exact ⟨opens, given, gives, distinct, within, fault⟩
    · rintro ⟨opens, blocks, gives, distinct, within, fault⟩
      exact ⟨_, collects_givesSoFar parent position gives within distinct, fault.push position⟩

/-- A block with a section inside, in which a block of the same name stands, and a section beside it
with another such block: only the first of these is a block of the call. -/
theorem start_outcome_same_name :
    let opening : Token := ⟨.tag .openBlock "a", .unknown, "{{$a}}"⟩
    let closing : Token := ⟨.tag .close "a", .unknown, "{{/a}}"⟩
    let first : Token := ⟨.tag .openSection "p", .unknown, "{{#p}}"⟩
    let last : Token := ⟨.tag .close "p", .unknown, "{{/p}}"⟩
    let inside := [first, opening, closing, last]
    let before := opening :: (inside ++ closing :: inside)
    (∃ call final, Collects (start "p" .unknown) before call ∧
      call.push last = .ok (final, true) ∧ final.givenBlocks = [⟨"a", inside⟩]) ∧
    (∃ call, Collects (start "p" .unknown) before call ∧
      call.push opening = .error (.duplicateBlock "p" "a")) ∧
    ∃ front token back call, before ++ [last, ⟨.eof, .unknown, ""⟩] = front ++ token :: back ∧
      Collects (start "p" .unknown) front call ∧
      ((∃ last, call.push token = .ok (last, true)) ∨ ∃ error, call.push token = .error error) := by
  intro opening closing first last inside before
  have pair : Token.WellNested (opening :: ([] ++ closing :: [])) := .enclose rfl rfl .nil .nil
  have nested : Token.WellNested (first :: ([opening, closing] ++ last :: [])) :=
    .enclose rfl rfl pair .nil
  have gives : Token.Gives before [⟨"a", inside⟩] := .block rfl rfl rfl nested
    (show Token.Gives (first :: ([opening, closing] ++ last :: [])) [] from
      .construct rfl rfl rfl pair .nil)
  have distinct : ([⟨"a", inside⟩].map GivenBlock.name).Nodup := by decide
  have within : ∀ t ∈ before, t.isEof = false := by decide
  obtain ⟨closes, fails, ends⟩ := start_outcome "p" .unknown
  exact ⟨(closes _ _ _).mpr ⟨rfl, gives, distinct, within⟩,
    (fails _ _ _).mpr ⟨_, _, .between gives, distinct, within, .duplicate rfl rfl rfl (by simp)⟩,
    ends _ ⟨⟨.eof, .unknown, ""⟩, by simp, rfl⟩⟩

end ParentCall

end Stencil
