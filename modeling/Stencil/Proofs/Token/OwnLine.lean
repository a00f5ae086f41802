import Mathlib.Data.List.DropRight
import Stencil.Proofs.Token.Joined

/-!
Tags with a line of their own. Main statement: a tag takes the rest of its line and the whitespace
in front of it out of the output if it has its line to itself, and nothing if it has not.
-/

namespace Stencil

theorem append_eq_append_cons {α : Type} {front more left right : List α} {item : α}
    (same : front ++ more = left ++ item :: right) :
    (∃ rest, left = front ++ rest ∧ more = rest ++ item :: right) ∨
      ∃ rest, front = left ++ item :: rest ∧ right = rest ++ more := by
  obtain ⟨rest, rfl, rfl⟩ | ⟨_ | ⟨first, rest⟩, rfl, behind⟩ := List.append_eq_append_iff.mp same
  · exact .inl ⟨rest, rfl, rfl⟩
  · exact .inl ⟨[], by simp, behind.symm⟩
  · obtain ⟨rfl, rfl⟩ := List.cons.inj behind
    exact .inr ⟨rest, rfl, rfl⟩

namespace Token

def opensBlank (before : List Token) : Bool :=
  before.getLast?.all fun last =>
    last.endsLine || (last.isWhitespace && before.dropLast.getLast?.all endsLine)

def closesBlank (after : List Token) : Bool :=
  after.head?.any fun first =>
    first.endsLine || (first.isWhitespace && after.tail.head?.any endsLine)

/-- Whether what stands between some tokens has its line to itself, but for whitespace. -/
def isAlone (before after : List Token) : Bool := opensBlank before && closesBlank after

def text (tokens : List Token) : String := String.ofList (Lexeme.chars tokens)

theorem text_cons (token : Token) (tokens : List Token) :
    text (token :: tokens) = token.raw ++ text tokens := by
  rw [text, Lexeme.chars_cons, String.ofList_append, String.ofList_toList]
  rfl

theorem text_append (front more : List Token) : text (front ++ more) = text front ++ text more := by
  rw [text, Lexeme.chars_append, String.ofList_append]
  rfl

/-- What stands between the tags of a section. A tag that has its line to itself takes the rest of
the line with it, and the whitespace in front of it. -/
def between (front : List Token) (opening : Token) (inner : List Token) (closing : Token)
    (behind : List Token) : List Token :=
  let kept :=
    if isAlone front (inner ++ closing :: behind) then (inner.dropWhile isWhitespace).drop 1
    else inner
  if isAlone (front ++ opening :: inner) behind then kept.rdropWhile isWhitespace else kept

variable {before after : List Token} {tag : Token}

theorem exists_of_opensBlank (blank : opensBlank before = true) :
    ∃ (whole : List Token) (space : Option Token), before = whole ++ space.toList ∧
      (∀ token ∈ space, token.isWhitespace = true) ∧
      ∀ token ∈ whole.getLast?, token.endsLine = true := by
  obtain rfl | ⟨whole, last, rfl⟩ := before.eq_nil_or_concat'
  · exact ⟨[], none, rfl, by simp, by simp⟩
  · simp only [opensBlank, List.getLast?_concat, Option.all_some, List.dropLast_concat,
      Bool.or_eq_true, Bool.and_eq_true] at blank
    obtain ends | ⟨space, ends⟩ := blank
    · exact ⟨whole ++ [last], none, by simp, by simp, by simpa using ends⟩
    · refine ⟨whole, some last, rfl, by simpa using space, ?_⟩
      intro token member
      rw [member] at ends
      exact ends

theorem opensBlank_append {whole : List Token} {space : Option Token}
    (isSpace : ∀ token ∈ space, token.isWhitespace = true)
    (ends : ∀ token ∈ whole.getLast?, token.endsLine = true) :
    opensBlank (whole ++ space.toList) = true := by
  cases space with
  | none =>
      rw [Option.toList_none, List.append_nil, opensBlank]
      cases last : whole.getLast? with
      | none => rfl
      | some token => simp [ends token last]
  | some blank =>
      have whitespace : blank.isWhitespace = true := isSpace blank rfl
      simp only [opensBlank, Option.toList_some, List.getLast?_concat, Option.all_some,
        List.dropLast_concat, whitespace, Bool.true_and, Bool.or_eq_true]
      right
      cases last : whole.getLast? with
      | none => rfl
      | some token => exact ends token last

theorem exists_of_closesBlank (blank : closesBlank after = true) :
    ∃ (space : Option Token) (ending : Token) (further : List Token),
      after = space.toList ++ ending :: further ∧
      (∀ token ∈ space, token.isWhitespace = true) ∧ ending.endsLine = true := by
  obtain _ | ⟨first, rest⟩ := after
  · cases blank
  · simp only [closesBlank, List.head?_cons, Option.any_some, List.tail_cons, Bool.or_eq_true,
      Bool.and_eq_true] at blank
    obtain ends | ⟨space, ends⟩ := blank
    · exact ⟨none, first, rest, rfl, by simp, ends⟩
    · obtain _ | ⟨second, rest⟩ := rest
      · cases ends
      · exact ⟨some first, second, rest, rfl, by simpa using space, by simpa using ends⟩

theorem closesBlank_append {space : Option Token} {ending : Token} {further : List Token}
    (isSpace : ∀ token ∈ space, token.isWhitespace = true) (ends : ending.endsLine = true) :
    closesBlank (space.toList ++ ending :: further) = true := by
  cases space with
  | none => simp [closesBlank, ends]
  | some blank =>
      have whitespace : blank.isWhitespace = true := isSpace blank rfl
      simp [closesBlank, whitespace, ends]

theorem dropWhile_line {space : Option Token} {ending : Token}
    (isSpace : ∀ token ∈ space, token.isWhitespace = true) (ends : ending.endsLine = true)
    (more : List Token) :
    ((space.toList ++ ending :: more).dropWhile isWhitespace).drop 1 = more := by
  have filled : ending.isWhitespace = false := by
    by_contra blank
    have inside := endsLine_of_isWhitespace (eq_true_of_ne_false blank)
    cases inside.symm.trans ends
  have stops : (ending :: more).dropWhile isWhitespace = ending :: more :=
    List.dropWhile_cons_of_neg (by simp [filled])
  rw [List.dropWhile_append_of_pos fun token member => isSpace token (Option.mem_toList.mp member),
    stops]
  rfl

theorem endsLine_of_opensBlank {last : Token} {spaces : List Token}
    (blank : opensBlank (before ++ last :: spaces) = true) (filled : spaces ≠ [])
    (isSpace : ∀ token ∈ spaces, token.isWhitespace = true) : last.endsLine = true := by
  obtain ⟨whole, space, same, spaceOnly, ends⟩ := exists_of_opensBlank blank
  obtain ⟨spaces, final, rfl⟩ := spaces.eq_nil_or_concat'.resolve_left filled
  have within : final.endsLine = false := endsLine_of_isWhitespace (isSpace final (by simp))
  cases space with
  | none =>
      rw [Option.toList_none, List.append_nil, ← List.cons_append, ← List.append_assoc] at same
      have endsHere := ends final (by rw [← same, List.getLast?_concat]; rfl)
      cases within.symm.trans endsHere
  | some blank =>
      rw [← List.cons_append, ← List.append_assoc, Option.toList_some] at same
      obtain ⟨rfl, -⟩ := List.append_inj' same rfl
      obtain rfl | ⟨spaces, inner, rfl⟩ := spaces.eq_nil_or_concat'
      · exact ends last (by simp)
      · have inside := endsLine_of_isWhitespace (isSpace inner (by simp))
        rw [← List.cons_append, ← List.append_assoc] at ends
        have endsHere := ends inner (by rw [List.getLast?_concat]; rfl)
        cases inside.symm.trans endsHere

theorem EndsOnce.isEof_of_mem {front more : List Token} (ends : EndsOnce (front ++ more))
    (filled : more ≠ []) : ∀ token ∈ front, token.isEof = false := by
  obtain ⟨body, ending, same, -, inside⟩ := ends
  obtain rfl | ⟨rest, last, rfl⟩ := more.eq_nil_or_concat'
  · exact absurd rfl filled
  · rw [← List.append_assoc] at same
    obtain ⟨rfl, -⟩ := List.append_inj' same rfl
    exact fun token member => inside token (List.mem_append_left _ member)

theorem EndsOnce.exists_line_behind (ends : EndsOnce (tag :: after))
    (inside : tag.endsLine = false) :
    ∃ rest ending further, after = rest ++ ending :: further ∧
      (∀ token ∈ rest, token.endsLine = false) ∧ ending.endsLine = true ∧
      (further = [] ∨ ending.isEof = false) := by
  obtain ⟨front, ending, more, same, within, endsLine, final⟩ := ends.exists_line
  cases front with
  | nil =>
      obtain ⟨rfl, rfl⟩ := List.cons.inj same
      cases inside.symm.trans endsLine
  | cons first front =>
      obtain ⟨rfl, rfl⟩ := List.cons.inj same
      exact ⟨front, ending, more, rfl, (List.forall_mem_cons.mp within).2, endsLine,
        final.imp_right And.left⟩

theorem EndsOnce.exists_line_around (ends : EndsOnce (before ++ tag :: after))
    (within : tag.endsLine = false) :
    ∃ whole here rest ending further, before = whole ++ here ∧
      after = rest ++ ending :: further ∧ (∀ token ∈ here, token.endsLine = false) ∧
      (∀ token ∈ rest, token.endsLine = false) ∧ ending.endsLine = true ∧
      (∀ token ∈ whole.getLast?, token.isNewline = true) ∧
      (further = [] ∨ ending.isEof = false) := by
  obtain ⟨rest, ending, further, rfl, inside, endsLine, final⟩ :=
    (LineClassifier.endsOnce_of_append (List.cons_ne_nil tag after) ends).exists_line_behind within
  refine ⟨before.rdropWhile fun token => !token.endsLine,
    before.rtakeWhile fun token => !token.endsLine, rest, ending, further,
    List.rdropWhile_append_rtakeWhile.symm, rfl, ?_, inside, endsLine, ?_, final⟩
  · intro token member
    simpa using List.mem_rtakeWhile_imp member
  · intro token last
    have notEof := ends.isEof_of_mem (List.cons_ne_nil tag _) token
      ((List.rdropWhile_prefix _ _).subset (List.mem_of_getLast? last))
    have filled := List.ne_nil_of_mem (List.mem_of_getLast? last)
    have stops := List.rdropWhile_last_not _ _ filled
    rw [List.getLast?_eq_some_getLast filled, Option.mem_some] at last
    rw [last, Bool.not_eq_true, Bool.not_eq_false', Token.endsLine, notEof, Bool.or_false] at stops
    exact stops

end Token

namespace StandaloneLine

variable {line : StandaloneLine} {here more : List Token} {tag : Token}

theorem rest_ne (standalone : tag.isStandalone = true) :
    line.after.toList ++ [line.ending] ≠ here ++ tag :: more := by
  intro same
  have member : tag ∈ line.after.toList ++ [line.ending] := by simp [same]
  rcases List.mem_append.mp member with space | last
  · have whitespace := line.after_isWhitespace tag (Option.mem_toList.mp space)
    cases whitespace.symm.trans (Token.isWhitespace_of_isStandalone standalone)
  · have endsLine := line.ending_endsLine
    rw [← List.mem_singleton.mp last, Token.endsLine_of_isStandalone standalone] at endsLine
    cases endsLine

theorem eq_of_tokens (same : line.tokens = here ++ tag :: more)
    (standalone : tag.isStandalone = true) :
    here = line.before.toList ∧ line.tag = tag ∧ more = line.after.toList ++ [line.ending] := by
  unfold tokens at same
  cases before : line.before with
  | none =>
      rw [before] at same
      obtain _ | ⟨first, here⟩ := here
      · obtain ⟨structural, rest⟩ := List.cons.inj same
        exact ⟨rfl, structural, rest.symm⟩
      · exact absurd (List.cons.inj same).2 (line.rest_ne standalone)
  | some blank =>
      rw [before] at same
      obtain _ | ⟨first, _ | ⟨second, here⟩⟩ := here
      · have whitespace := line.before_isWhitespace blank before
        rw [(List.cons.inj same).1, Token.isWhitespace_of_isStandalone standalone] at whitespace
        cases whitespace
      · obtain ⟨rfl, rest⟩ := List.cons.inj same
        obtain ⟨structural, rest⟩ := List.cons.inj rest
        exact ⟨rfl, structural, rest.symm⟩
      · exact absurd (List.cons.inj (List.cons.inj same).2).2 (line.rest_ne standalone)

end StandaloneLine

namespace LineClassifier

open Token

variable {before after tokens : List Token} {tag : Token} {left right : List LineToken}
  {t : LineToken} {group : LineGroup} {atLineStart : Bool}

theorem map_token_map_of (role : Role) (tokens : List Token) :
    (tokens.map (LineToken.of role)).map LineToken.token = tokens := by
  rw [List.map_map]
  exact List.map_id _

theorem map_token_line (line : StandaloneLine) :
    line.group.map LineToken.token = line.tokens := by
  rw [StandaloneLine.group, List.map_append, List.map_cons, map_token_map_of, map_token_map_of]
  rfl

theorem append_inj_of_map {α β : Type} {f : α → β} {first second before after : List α}
    (same : first ++ second = before ++ after) (alike : first.map f = before.map f) :
    first = before ∧ second = after :=
  List.append_inj same (by simpa using congrArg List.length alike)

namespace Formed

theorem ne_nil (formed : Formed group) : group ≠ [] := by
  cases formed with
  | single _ | pair _ _ => exact List.cons_ne_nil _ _
  | line line => simp [StandaloneLine.group]

theorem role_head (formed : Formed group) : ∀ t ∈ group.head?, t.role ≠ .ignore := by
  intro t first
  cases formed with
  | single token | pair token _ =>
      obtain rfl := Option.some.inj first
      exact LineToken.role_ne (by decide) (by decide) token
  | line line =>
      unfold StandaloneLine.group at first
      cases before : line.before <;> rw [before] at first <;>
        obtain rfl := Option.some.inj first <;>
        exact LineToken.role_ne (by decide) (by decide) _

theorem around {pre post : List LineToken} (formed : Formed (pre ++ .of .normal tag :: post))
    (standalone : tag.isStandalone = true) :
    (∃ first : Option Token, pre = first.toList.map (LineToken.of .normal) ∧ post = []) ∨
      (∃ next : Token, next.isStandalone = true ∧ pre = [] ∧ post = [.of .normal next]) ∨
      ∃ line : StandaloneLine, line.tag = tag ∧
        pre = line.before.toList.map (LineToken.of .indent) ∧
        post = (line.after.toList ++ [line.ending]).map (LineToken.of .ignore) := by
  generalize whole : pre ++ .of .normal tag :: post = group at formed
  cases formed with
  | single token =>
      obtain _ | ⟨first, pre⟩ := pre
      · exact .inl ⟨none, rfl, (List.cons.inj whole).2⟩
      · cases List.append_eq_nil_iff.mp (List.cons.inj whole).2 |>.2
  | @pair first next isTag =>
      obtain _ | ⟨one, _ | ⟨two, pre⟩⟩ := pre
      · exact .inr (.inl ⟨next, isTag, rfl, (List.cons.inj whole).2⟩)
      · obtain ⟨rfl, rest⟩ := List.cons.inj whole
        exact .inl ⟨some first, rfl, (List.cons.inj rest).2⟩
      · cases List.append_eq_nil_iff.mp (List.cons.inj (List.cons.inj whole).2).2 |>.2
  | line line =>
      have spelled := congrArg (List.map LineToken.token) whole.symm
      rw [map_token_line, List.map_append, List.map_cons] at spelled
      obtain ⟨before, structural, -⟩ := line.eq_of_tokens spelled standalone
      refine .inr (.inr ⟨line, structural, ?_⟩)
      obtain ⟨same, rest⟩ := append_inj_of_map whole (by rw [before, map_token_map_of])
      exact ⟨same, (List.cons.inj rest).2⟩

end Formed

theorem role_head_flatten {groups : List LineGroup} (formed : ∀ group ∈ groups, Formed group) :
    ∀ t ∈ groups.flatten.head?, t.role ≠ .ignore := by
  intro t first
  obtain _ | ⟨group, groups⟩ := groups
  · cases first
  · obtain ⟨here, -⟩ := List.forall_mem_cons.mp formed
    rw [List.flatten_cons, List.head?_append_of_ne_nil _ here.ne_nil] at first
    exact here.role_head t first

theorem role_getLast_flatten {groups : List LineGroup} (formed : ∀ group ∈ groups, Formed group) :
    ∀ t ∈ groups.flatten.getLast?, t.role ≠ .indent := by
  intro t last
  obtain rfl | ⟨groups, group, rfl⟩ := groups.eq_nil_or_concat'
  · cases last
  · have here := formed group (by simp)
    rw [List.flatten_concat, List.getLast?_append_of_ne_nil _ here.ne_nil] at last
    exact here.role_getLast t last

theorem drain_alone (ends : EndsOnce (before ++ tag :: after))
    (standalone : tag.isStandalone = true)
    (alone : isAlone before after = true) :
    ∃ (whole : List Token) (line : StandaloneLine) (further : List Token), line.tag = tag ∧
      before = whole ++ line.before.toList ∧
      after = line.after.toList ++ line.ending :: further ∧
      (∀ token ∈ whole.getLast?, token.isNewline = true) ∧
      drain true (before ++ tag :: after) =
        drain true whole ++ line.group :: drain true further := by
  obtain ⟨blankBefore, blankAfter⟩ := Bool.and_eq_true_iff.mp alone
  obtain ⟨whole, space, rfl, isSpace, final⟩ := exists_of_opensBlank blankBefore
  obtain ⟨spaceAfter, ending, further, rfl, isSpaceAfter, endsLine⟩ :=
    exists_of_closesBlank blankAfter
  let line : StandaloneLine :=
    ⟨space, tag, spaceAfter, ending, isSpace, standalone, isSpaceAfter, endsLine⟩
  have newline : ∀ token ∈ whole.getLast?, token.isNewline = true := by
    intro token last
    have inside := ends.isEof_of_mem (by simp) token
      (List.mem_append_left _ (List.mem_of_getLast? last))
    have endsHere := final token last
    rwa [Token.endsLine, inside, Bool.or_false] at endsHere
  have spelled : whole ++ space.toList ++ tag :: (spaceAfter.toList ++ ending :: further) =
      whole ++ (line.tokens ++ further) := by
    simp [StandaloneLine.tokens, line]
  have length : line.group.length = line.tokens.length := by
    simp [StandaloneLine.group, StandaloneLine.tokens]
  refine ⟨whole, line, further, rfl, rfl, rfl, newline, ?_⟩
  rw [spelled, drain_append newline (fun _ => rfl), drain_group (group?_tokens line further),
    length, List.drop_left]

theorem drain_apart (ends : EndsOnce (before ++ tag :: after))
    (standalone : tag.isStandalone = true)
    (apart : isAlone before after = false) :
    ∃ left right, (drain true (before ++ tag :: after)).flatten = left ++ .of .normal tag :: right ∧
      left.map LineToken.token = before ∧ (∀ t ∈ left.getLast?, t.role ≠ .indent) ∧
      ∀ t ∈ right.head?, t.role ≠ .ignore := by
  obtain ⟨whole, here, rest, ending, further, rfl, rfl, inside, insideRest, endsLine, newline,
    final⟩ := ends.exists_line_around (endsLine_of_isStandalone standalone)
  have within : ∀ token ∈ here ++ tag :: rest, token.endsLine = false := by
    refine List.forall_mem_append.mpr ⟨inside, List.forall_mem_cons.mpr ⟨?_, insideRest⟩⟩
    exact endsLine_of_isStandalone standalone
  obtain ⟨groups, grouped, released⟩ := exists_grouped_line within endsLine final
  have whole' : drain true (whole ++ here ++ tag :: (rest ++ ending :: further)) =
      drain true whole ++ (groups ++ drain true further) := by
    rw [← released, ← drain_append newline (fun _ => rfl)]
    simp
  rw [whole']
  generalize spelled : here ++ tag :: rest ++ [ending] = tokens at grouped
  cases grouped with
  | standalone line =>
      exfalso
      rw [List.append_assoc, List.cons_append] at spelled
      obtain ⟨rfl, rfl, rest⟩ := line.eq_of_tokens spelled.symm standalone
      obtain ⟨rfl, final⟩ := List.append_inj' rest rfl
      obtain rfl := List.singleton_inj.mp final
      have final : ∀ token ∈ whole.getLast?, token.endsLine = true := fun token last => by
        simp [Token.endsLine, newline token last]
      have before := opensBlank_append line.before_isWhitespace final
      have after : closesBlank (line.after.toList ++ line.ending :: further) = true :=
        closesBlank_append line.after_isWhitespace endsLine
      rw [isAlone, before, after] at apart
      cases apart
  | plain _ normal =>
      subst spelled
      refine ⟨(drain true whole).flatten ++ here.map (LineToken.of .normal),
        (rest ++ [ending]).map (LineToken.of .normal) ++ (drain true further).flatten,
        ?_, ?_, ?_, ?_⟩
      · simp [normal]
      · rw [List.map_append, map_token_drain, map_token_map_of]
      · intro t last
        obtain rfl | ⟨front, token, rfl⟩ := here.eq_nil_or_concat'
        · rw [List.map_nil, List.append_nil] at last
          exact role_getLast_flatten (fun group member => formed_of_mem_drain member) t last
        · rw [List.map_append, List.map_singleton, ← List.append_assoc,
            List.getLast?_concat] at last
          obtain rfl := Option.some.inj last
          exact LineToken.role_ne (by decide) (by decide) token
      · intro t first
        have isFirst : ∃ token, LineToken.of .normal token = t := by
          cases rest <;> exact ⟨_, Option.some.inj first⟩
        obtain ⟨token, rfl⟩ := isFirst
        exact LineToken.role_ne (by decide) (by decide) token

theorem rdropWhile_append_of_getLast {α : Type} {p : α → Bool} {front more : List α}
    (kept : ∀ last ∈ front.getLast?, p last = false) :
    (front ++ more).rdropWhile p = front ++ more.rdropWhile p := by
  induction more using List.reverseRecOn with
  | nil =>
      rw [List.append_nil, List.rdropWhile_nil, List.append_nil, List.rdropWhile_eq_self_iff]
      intro filled
      simpa using kept _ (List.getLast?_eq_some_getLast filled)
  | append_singleton more last ih =>
      rw [← List.append_assoc, List.rdropWhile_concat, List.rdropWhile_concat]
      split
      · exact ih
      · rw [List.append_assoc]

theorem rtakeWhile_append_of_getLast {α : Type} {p : α → Bool} {front more : List α}
    (kept : ∀ last ∈ front.getLast?, p last = false) :
    (front ++ more).rtakeWhile p = more.rtakeWhile p := by
  have parts : front ++ more.rdropWhile p ++ (front ++ more).rtakeWhile p =
      front ++ more.rdropWhile p ++ more.rtakeWhile p := by
    rw [← rdropWhile_append_of_getLast kept, List.rdropWhile_append_rtakeWhile,
      rdropWhile_append_of_getLast kept, List.append_assoc, List.rdropWhile_append_rtakeWhile]
  exact List.append_cancel_left parts

theorem dropWhile_of_head {more : List LineToken} (written : ∀ t ∈ more.head?, t.role ≠ .ignore) :
    more.dropWhile (·.role = .ignore) = more := by
  cases more with
  | nil => rfl
  | cons t more => exact List.dropWhile_cons_of_neg (by simpa using written t rfl)

theorem map_rdropWhile_of_append {α β : Type} {f : α → β} {p : α → Bool} {q : β → Bool}
    {front back : List α}
    (same : ((front ++ back).rdropWhile p).map f = ((front ++ back).map f).rdropWhile q) :
    (back.rdropWhile p).map f = (back.map f).rdropWhile q := by
  induction back using List.reverseRecOn with
  | nil => rfl
  | append_singleton back last ih =>
      have fewer := (List.rdropWhile_prefix p (front ++ back)).length_le
      have fewerThere := (List.rdropWhile_prefix q ((front ++ back).map f)).length_le
      have mapped : (front ++ back ++ [last]).map f = (front ++ back).map f ++ [f last] :=
        List.map_append
      rw [← List.append_assoc, List.rdropWhile_concat, mapped, List.rdropWhile_concat] at same
      rw [List.rdropWhile_concat, List.map_append, List.map_singleton, List.rdropWhile_concat]
      by_cases here : p last = true <;> by_cases there : q (f last) = true
      · rw [if_pos here, if_pos there] at same ⊢
        exact ih same
      · rw [if_pos here, if_neg there] at same
        have lengths := congrArg List.length same
        simp only [List.length_map, List.length_append, List.length_singleton] at lengths fewer
        omega
      · rw [if_neg here, if_pos there] at same
        have lengths := congrArg List.length same
        simp only [List.length_map, List.length_append, List.length_singleton] at lengths fewerThere
        omega
      · rw [if_neg here, if_neg there, List.map_append, List.map_singleton]

section

variable {front inner behind : List Token} {opening closing : Token} {inside : List LineToken}
  {o c : LineToken}

theorem map_token_dropWhile (ends : EndsOnce (front ++ opening :: (inner ++ closing :: behind)))
    (opens : opening.isStandalone = true) (closes : closing.isStandalone = true)
    (split : (drain true (front ++ opening :: (inner ++ closing :: behind))).flatten =
      left ++ o :: (inside ++ c :: right))
    (sameFront : left.map LineToken.token = front)
    (sameInner : inside.map LineToken.token = inner) :
    (inside.dropWhile (·.role = .ignore)).map LineToken.token =
      if isAlone front (inner ++ closing :: behind) then (inner.dropWhile isWhitespace).drop 1
      else inner := by
  cases alone : isAlone front (inner ++ closing :: behind) with
  | true =>
      obtain ⟨whole, line, further, rfl, rfl, rest, -, released⟩ := drain_alone ends opens alone
      obtain ⟨more, rfl, rfl⟩ : ∃ more, inner = line.after.toList ++ [line.ending] ++ more ∧
          further = more ++ closing :: behind := by
        rw [List.append_cons line.after.toList, List.append_eq_append_iff] at rest
        obtain ⟨_ | ⟨first, more⟩, within, same⟩ | ⟨more, same, within⟩ := rest
        · exact ⟨[], by simpa using within.symm, same.symm⟩
        · obtain ⟨rfl, -⟩ := List.cons.inj same
          exact absurd within (line.rest_ne closes)
        · exact ⟨more, same, within⟩
      obtain ⟨ignored, later, rfl, sameIgnored, rfl⟩ := List.map_eq_append_iff.mp sameInner
      have shown : left ++ o :: (ignored ++ (later ++ c :: right)) =
          ((drain true whole).flatten ++ line.before.toList.map (LineToken.of .indent)) ++
            .of .normal line.tag ::
              ((line.after.toList ++ [line.ending]).map (LineToken.of .ignore) ++
                (drain true (later.map LineToken.token ++ closing :: behind)).flatten) := by
        rw [← List.append_assoc ignored, ← split, released, List.flatten_append, List.flatten_cons,
          StandaloneLine.group]
        simp only [List.append_assoc, List.cons_append]
      obtain ⟨-, behindTag⟩ := append_inj_of_map shown (by
        rw [sameFront, List.map_append, map_token_drain, map_token_map_of])
      obtain ⟨rfl, behindLine⟩ := append_inj_of_map (List.cons.inj behindTag).2 (by
        rw [sameIgnored, map_token_map_of])
      have each : ∀ t ∈ (line.after.toList ++ [line.ending]).map (LineToken.of .ignore),
          decide (t.role = .ignore) = true := by
        intro t member
        obtain ⟨token, ignored, rfl⟩ := List.mem_map.mp member
        rw [List.append_cons, ← List.append_assoc] at ends
        have inside := ends.isEof_of_mem (List.cons_ne_nil _ _) token
          (List.mem_append_right _ (List.mem_append_left _ ignored))
        simp [LineToken.of, inside]
      have stops : later.dropWhile (fun t => decide (t.role = .ignore)) = later := by
        have formed : ∀ group ∈ drain true (later.map LineToken.token ++ closing :: behind),
            Formed group := fun group member => formed_of_mem_drain member
        have first := role_head_flatten formed
        rw [← behindLine] at first
        cases later with
        | nil => rfl
        | cons t later => exact List.dropWhile_cons_of_neg (by simpa using first t rfl)
      rw [List.dropWhile_append_of_pos each, stops, if_pos rfl, List.append_assoc,
        List.singleton_append, dropWhile_line line.after_isWhitespace line.ending_endsLine]
  | false =>
      obtain ⟨before, after, same, sameBefore, -, first⟩ := drain_apart ends opens alone
      obtain ⟨-, rest⟩ :=
        append_inj_of_map (split.symm.trans same) (sameFront.trans sameBefore.symm)
      obtain ⟨-, rfl⟩ := List.cons.inj rest
      have kept : inside.dropWhile (·.role = .ignore) = inside := by
        cases inside with
        | nil => rfl
        | cons t inside => exact List.dropWhile_cons_of_neg (by simpa using first t rfl)
      rw [kept, sameInner]
      rfl

theorem map_token_rdropWhile (ends : EndsOnce (before ++ tag :: after))
    (standalone : tag.isStandalone = true)
    (split : (drain true (before ++ tag :: after)).flatten = left ++ t :: right)
    (same : left.map LineToken.token = before) :
    (left.rdropWhile (·.role = .indent)).map LineToken.token =
      if isAlone before after then before.rdropWhile isWhitespace else before := by
  cases alone : isAlone before after with
  | true =>
      obtain ⟨whole, line, further, rfl, rfl, -, newline, released⟩ :=
        drain_alone ends standalone alone
      have shown : left ++ t :: right =
          ((drain true whole).flatten ++ line.before.toList.map (LineToken.of .indent)) ++
            .of .normal line.tag ::
              ((line.after.toList ++ [line.ending]).map (LineToken.of .ignore) ++
              (drain true further).flatten) := by
        rw [← split, released, List.flatten_append, List.flatten_cons, StandaloneLine.group]
        simp only [List.append_assoc, List.cons_append]
      obtain ⟨rfl, -⟩ := append_inj_of_map shown (by
        rw [same, List.map_append, map_token_drain, map_token_map_of])
      have written : (drain true whole).flatten.rdropWhile (fun t => decide (t.role = .indent)) =
          (drain true whole).flatten :=
        List.rdropWhile_eq_self_iff.mpr fun filled => by
          simpa using role_getLast_flatten (fun group member => formed_of_mem_drain member) _
            (List.getLast?_eq_some_getLast filled)
      have ended : whole.rdropWhile isWhitespace = whole :=
        List.rdropWhile_eq_self_iff.mpr fun filled blank => by
          have ends := newline _ (List.getLast?_eq_some_getLast filled)
          have inside := endsLine_of_isWhitespace blank
          simp [Token.endsLine, ends] at inside
      rw [if_pos rfl]
      cases before : line.before with
      | none => simpa [written, ended] using map_token_drain true whole
      | some blank =>
          have space : blank.isWhitespace = true := line.before_isWhitespace blank before
          have inside := endsLine_of_isWhitespace space
          rw [Token.endsLine, Bool.or_eq_false_iff] at inside
          have indent : (LineToken.of .indent blank).role = .indent := by
            simp [LineToken.of, inside.2]
          rw [Option.toList_some, List.map_singleton,
            List.rdropWhile_concat_pos _ _ _ (by simpa using indent), written, map_token_drain,
            List.rdropWhile_concat_pos _ _ _ space, ended]
  | false =>
      obtain ⟨front, back, released, sameFront, last, -⟩ := drain_apart ends standalone alone
      obtain ⟨rfl, -⟩ := append_inj_of_map (split.symm.trans released) (same.trans sameFront.symm)
      have kept : left.rdropWhile (·.role = .indent) = left :=
        List.rdropWhile_eq_self_iff.mpr fun filled => by
          simpa using last _ (List.getLast?_eq_some_getLast filled)
      rw [kept, same]
      rfl

theorem map_token_between (ends : EndsOnce (front ++ opening :: (inner ++ closing :: behind)))
    (opens : opening.isStandalone = true) (closes : closing.isStandalone = true)
    (split : (drain true (front ++ opening :: (inner ++ closing :: behind))).flatten =
      left ++ o :: (inside ++ c :: right))
    (sameFront : left.map LineToken.token = front)
    (sameInner : inside.map LineToken.token = inner) :
    ((inside.dropWhile (·.role = .ignore)).rdropWhile (·.role = .indent)).map LineToken.token =
      between front opening inner closing behind := by
  have isOpening : o.token = opening := by
    have whole := map_token_drain true (front ++ opening :: (inner ++ closing :: behind))
    rw [split, List.map_append, List.map_cons, sameFront] at whole
    exact (List.cons.inj (List.append_cancel_left whole)).1
  have reshaped : front ++ opening :: (inner ++ closing :: behind) =
      (front ++ opening :: inner) ++ closing :: behind := by simp
  have kept := map_token_dropWhile ends opens closes split sameFront sameInner
  rw [reshaped] at ends split
  have same : (left ++ o :: inside).map LineToken.token = front ++ opening :: inner := by
    rw [List.map_append, List.map_cons, sameFront, isOpening, sameInner]
  have dropped := map_token_rdropWhile ends closes
    (by rw [split, List.append_assoc, List.cons_append]) same
  have parts : left ++ o :: inside = (left ++ o :: inside.takeWhile (·.role = .ignore)) ++
      inside.dropWhile (·.role = .ignore) := by
    rw [List.append_assoc, List.cons_append, List.takeWhile_append_dropWhile]
  rw [← same, parts] at dropped
  rw [between, ← kept]
  cases alone : isAlone (front ++ opening :: inner) behind with
  | true =>
      rw [← same, parts] at alone
      rw [alone] at dropped
      exact map_rdropWhile_of_append dropped
  | false =>
      rw [← same, parts] at alone
      have nothing (tokens : List Token) : tokens.rdropWhile (fun _ => false) = tokens :=
        List.rdropWhile_eq_self_iff.mpr fun _ => Bool.false_ne_true
      rw [alone, if_neg Bool.false_ne_true] at dropped
      exact (map_rdropWhile_of_append (dropped.trans (nothing _).symm)).trans (nothing _)

end

end LineClassifier

end Stencil
