import Stencil.Proofs.Compile.Unplaced
import Stencil.Proofs.Template.Collection
import Stencil.Proofs.Template.Replacement

/-!
Templates as trees: every section and block with what stands between its tags. Main statements: the
blocks that a parent call collects are those between its tags, and replacing the blocks of a parent
is replacing their text.
-/

namespace Stencil

def TagKind.isPaired : TagKind → Bool
  | openSection | openInverted | openBlock => true
  | _ => false

def Token.isLeaf (token : Token) : Bool :=
  match token.kind with
  | .text _ | .whitespace _ | .newline _ | .special _ | .comment _ => true
  | .tag .escaped _ | .tag .unescaped _ => true
  | _ => false

/-- Tokens in which every section and block has its end tag. -/
inductive Markup where
  | done
  | leaf (token : Token) (isLeaf : token.isLeaf = true) (rest : Markup)
  | pair (kind : TagKind) (name : String) (opening : Token) (inside : Markup) (closing : Token)
      (isPaired : kind.isPaired = true) (opens : opening.kind = .tag kind name)
      (closes : closing.kind = .tag .close name) (rest : Markup)

namespace Markup

def tokens : Markup → List Token
  | done => []
  | leaf token _ rest => token :: rest.tokens
  | pair _ _ opening inside closing _ _ _ rest =>
      opening :: (inside.tokens ++ closing :: rest.tokens)

def given? {α : Type} (given : String → Option α) (kind : TagKind) (name : String) : Option α :=
  if kind = .openBlock then given name else none

/-- The text, with what is given for a block in place of what the block has inside. -/
def text (given : String → Option String) : Markup → String
  | done => ""
  | leaf token _ rest => token.raw ++ rest.text given
  | pair kind name opening inside closing _ _ _ rest =>
      opening.raw ++ (given? given kind name).getD (inside.text given) ++ closing.raw ++
        rest.text given

def fill (given : String → Option (List Token)) : Markup → List Token
  | done => []
  | leaf token _ rest => token :: rest.fill given
  | pair kind name opening inside closing _ _ _ rest =>
      opening :: ((given? given kind name).getD (inside.fill given) ++ closing :: rest.fill given)

/-- That a text is read as some markup. -/
def Of (markup : Markup) (source : String) : Prop :=
  ∃ template position, tokenize template source = .ok (markup.tokens ++ [⟨.eof, position, ""⟩])

end Markup

namespace Markup

open Lexeme

variable {markup : Markup} {given : String → Option (List Token)} {rest other : List Char}

theorem take_chars_fill (reads : ReadsAll markup.tokens rest)
    (same : rest.take 2 = other.take 2) :
    (chars markup.tokens ++ rest).take 2 = (chars (markup.fill given) ++ other).take 2 := by
  induction markup with
  | done => exact same
  | leaf token isLeaf more ih =>
      obtain _ | ⟨-, further⟩ := reads
      have behind := Agree.take_append_left (ih further) token.raw.toList
      simpa only [tokens, fill, chars_cons, List.append_assoc] using behind
  | pair kind name opening inside closing isPaired opens closes more =>
      obtain _ | ⟨here, -⟩ := reads
      obtain ⟨inner, raw, -⟩ := here.of_tag opens
      simp [tokens, fill, chars_cons, raw]

theorem readsAll_fill (reads : ReadsAll markup.tokens rest) (same : rest.take 2 = other.take 2)
    (closed : ∀ name tokens, given name = some tokens →
      ∀ more, ReadsAll tokens ('\x7b' :: '\x7b' :: more)) :
    ReadsAll (markup.fill given) other := by
  induction markup generalizing rest other with
  | done => exact .nil
  | leaf token isLeaf more ih =>
      obtain _ | ⟨here, further⟩ := reads
      exact .cons (here.agree (.of_take (take_chars_fill further same) _)) (ih further same)
  | pair kind name opening inside closing isPaired opens closes more ihInside ihRest =>
      obtain _ | ⟨here, further⟩ := reads
      obtain ⟨within, following⟩ := further.of_append
      obtain _ | ⟨shut, later⟩ := following
      obtain ⟨inner, raw, anywhere⟩ := shut.of_tag closes
      have tail : ReadsAll (closing :: more.fill given) other :=
        .cons (anywhere _) (ihRest later same)
      have front : chars (closing :: more.fill given) ++ other =
          '\x7b' :: '\x7b' :: (inner ++ (chars (more.fill given) ++ other)) := by
        rw [chars_cons, raw]
        simp
      refine .cons ((here.of_tag opens).choose_spec.2 _) (.append ?_ tail)
      rw [front]
      cases replaced : given? given kind name with
      | some tokens =>
          refine closed name tokens ?_ _
          unfold given? at replaced
          split at replaced
          · exact replaced
          · cases replaced
      | none =>
          refine ihInside within ?_
          rw [chars_cons, raw]
          rfl

theorem chars_fill {written : String → Option String} (markup : Markup)
    (same : ∀ name, (given name).map chars = (written name).map String.toList) :
    chars (markup.fill given) = (markup.text written).toList := by
  induction markup with
  | done => rfl
  | leaf token isLeaf more ih => simp [fill, text, chars_cons, ih]
  | pair kind name opening inside closing isPaired opens closes more ihInside ihRest =>
      have replaced : chars ((given? given kind name).getD (inside.fill given)) =
          ((given? written kind name).getD (inside.text written)).toList := by
        unfold given?
        split
        · have here := same name
          cases tokens : given name <;> cases texts : written name <;>
            simp_all
        · exact ihInside
      simp [fill, text, chars_cons, chars_append, replaced, ihRest]

variable {t : Token}

def Holds (t : Token) : Prop :=
  t.isLeaf = true ∨ ∃ kind name, t.kind = .tag kind name ∧ (kind.isPaired = true ∨ kind = .close)

theorem holds_of_mem (member : t ∈ markup.tokens) : Holds t := by
  induction markup with
  | done => cases member
  | leaf token isLeaf rest ih =>
      obtain rfl | later := List.mem_cons.mp member
      · exact .inl isLeaf
      · exact ih later
  | pair kind name opening inside closing isPaired opens closes rest ihInside ihRest =>
      simp only [tokens, List.mem_cons, List.mem_append] at member
      obtain rfl | within | rfl | later := member
      · exact .inr ⟨kind, name, opens, .inl isPaired⟩
      · exact ihInside within
      · exact .inr ⟨.close, name, closes, .inr rfl⟩
      · exact ihRest later

theorem Holds.isLocal (holds : Holds t) : t.isLocal = true := by
  unfold Token.isLocal
  obtain isLeaf | ⟨kind, name, tag, paired⟩ := holds
  · unfold Token.isLeaf at isLeaf
    split at isLeaf <;> simp_all
  · rw [tag]
    obtain paired | rfl := paired
    · cases kind <;> first | rfl | cases paired
    · rfl

theorem Holds.isEof (holds : Holds t) : t.isEof = false := by
  unfold Token.isEof
  obtain isLeaf | ⟨kind, name, tag, -⟩ := holds
  · unfold Token.isLeaf at isLeaf
    split at isLeaf <;> simp_all
  · rw [tag]

theorem Holds.kind_ne_delimiters (holds : Holds t) (opening closing : String) :
    t.kind ≠ .delimiters opening closing := by
  obtain isLeaf | ⟨kind, name, tag, -⟩ := holds
  · intro change
    simp [Token.isLeaf, change] at isLeaf
  · simp [tag]

theorem Of.readsAll {source : String} (reads : markup.Of source) :
    chars markup.tokens = source.toList ∧ ReadsAll markup.tokens [] := by
  obtain ⟨template, position, read⟩ := reads
  obtain ⟨body, last, same, whole, all⟩ := readsAll_of_tokenize read (by
    intro token member opening closing
    obtain member | member := List.mem_append.mp member
    · exact (holds_of_mem member).kind_ne_delimiters opening closing
    · simp only [List.mem_singleton] at member
      simp [member])
  obtain ⟨rfl, -⟩ := List.append_inj' same rfl
  exact ⟨whole, all⟩

theorem opened?_of_isPaired {kind : TagKind} {name : String} (opens : t.kind = .tag kind name)
    (isPaired : kind.isPaired = true) :
    t.opened? = some name ∧ t.opensBlock = decide (kind = .openBlock) := by
  unfold Token.opened? Token.opensBlock
  rw [opens]
  cases kind <;> first | exact ⟨rfl, rfl⟩ | cases isPaired

theorem untagged_of_isLeaf (isLeaf : t.isLeaf = true) : t.opened? = none ∧ t.closed? = none := by
  unfold Token.opened? Token.closed?
  unfold Token.isLeaf at isLeaf
  split at isLeaf <;> simp_all [TagKind.isOpening]

theorem wellNested (markup : Markup) : Token.WellNested markup.tokens := by
  induction markup with
  | done => exact .nil
  | leaf token isLeaf rest ih =>
      obtain ⟨noOpening, noEnd⟩ := untagged_of_isLeaf isLeaf
      exact .other noOpening noEnd ih
  | pair kind name opening inside closing isPaired opens closes rest ihInside ihRest =>
      exact .enclose (opened?_of_isPaired opens isPaired).1 (Token.closed?_eq_some_iff.mpr closes)
        ihInside ihRest

theorem fills (markup : Markup) (given : GivenBlocks) :
    given.Fills markup.tokens (markup.fill given.find?) := by
  induction markup with
  | done => exact .nil
  | leaf token isLeaf rest ih =>
      obtain ⟨noOpening, noEnd⟩ := untagged_of_isLeaf isLeaf
      exact .other noOpening noEnd ih
  | pair kind name opening inside closing isPaired opens closes rest ihInside ihRest =>
      obtain ⟨opened, isBlock⟩ := opened?_of_isPaired opens isPaired
      have closed := Token.closed?_eq_some_iff.mpr closes
      rw [fill]
      cases found : given? given.find? kind name with
      | some tokens =>
          obtain ⟨rfl, found⟩ := Option.ite_none_right_eq_some.mp found
          exact .replaced opened isBlock (GivenBlocks.provides_iff.mpr found) closed
            inside.wellNested ihRest
      | none =>
          refine .kept opened ?_ closed ihInside ihRest
          intro isBlock' tokens provides
          have outermost : kind = .openBlock := of_decide_eq_true (isBlock ▸ isBlock')
          rw [given?, if_pos outermost, GivenBlocks.provides_iff.mp provides] at found
          cases found

theorem isEof_of_mem (member : t ∈ markup.tokens) : t.isEof = false := (holds_of_mem member).isEof

end Markup

namespace BlockReplacement

variable {blocks : GivenBlocks} {depth : Nat}

theorem replaceAll_markup (markup : Markup) (rest : List Token) :
    replaceAll ⟨blocks, depth, none⟩ (markup.tokens ++ rest) =
      markup.fill blocks.find? ++ replaceAll ⟨blocks, depth, none⟩ rest :=
  replaceAll_fills (markup.fills blocks) (fun _ => Markup.isEof_of_mem) depth rest

end BlockReplacement

namespace ParentCall

variable {call last : ParentCall} {tokens : List Token}

theorem Collects.unplaced (collects : Collects call tokens last) :
    Collects call.unplaced (tokens.map Token.unplaced) last.unplaced := by
  induction collects with
  | nil => exact .nil
  | cons taken _ ih =>
      refine .cons ?_ ih
      rw [push_unplaced, taken]
      rfl

theorem Collects.exists_of_unplaced
    (collects : Collects call.unplaced (tokens.map Token.unplaced) last) :
    ∃ after, Collects call tokens after ∧ after.unplaced = last := by
  induction tokens generalizing call with
  | nil =>
      cases collects
      exact ⟨call, .nil, rfl⟩
  | cons token tokens ih =>
      obtain _ | ⟨taken, further⟩ := collects
      rw [push_unplaced] at taken
      obtain ⟨⟨next, closed⟩, pushed, same⟩ := map_eq_ok.mp taken
      obtain ⟨rfl, rfl⟩ := Prod.mk.inj same
      obtain ⟨after, rest, last⟩ := ih further
      exact ⟨after, .cons pushed rest, last⟩

def blockTokens (block : String × Markup) : List Token :=
  TagKind.openBlock.token block.1 :: (block.2.tokens ++ [TagKind.close.token block.1])

end ParentCall

end Stencil
