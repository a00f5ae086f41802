import Stencil.Proofs.Token.OwnLine

/-!
Tags in their groups. Main statement: the group of a structural tag is a line of its own if the tag
has its line to itself, and in no other case.
-/

namespace Stencil

section

variable {α : Type} {lists earlier others later further : List (List α)}
  {left right here there rest back : List α} {item other : α}

theorem exists_list_of_flatten (split : lists.flatten = left ++ item :: right) :
    ∃ earlier here rest later, lists = earlier ++ (here ++ item :: rest) :: later ∧
      left = earlier.flatten ++ here ∧ right = rest ++ later.flatten := by
  induction lists generalizing left with
  | nil => cases List.append_eq_nil_iff.mp split.symm |>.2
  | cons list lists ih =>
      rw [List.flatten_cons] at split
      obtain ⟨more, rfl, further⟩ | ⟨rest, rfl, rfl⟩ := append_eq_append_cons split
      · obtain ⟨earlier, here, rest, later, rfl, rfl, rfl⟩ := ih further
        exact ⟨list :: earlier, here, rest, later, rfl, by simp, rfl⟩
      · exact ⟨[], left, rest, lists, rfl, rfl, rfl⟩

theorem eq_of_flatten
    (same : earlier ++ (here ++ item :: rest) :: later =
      others ++ (there ++ other :: back) :: further)
    (aligned : (earlier.flatten ++ here).length = (others.flatten ++ there).length) :
    earlier = others ∧ here = there ∧ rest = back ∧ later = further := by
  induction earlier generalizing others with
  | nil =>
      cases others with
      | nil =>
          obtain ⟨list, later⟩ := List.cons.inj same
          obtain ⟨sameHere, behind⟩ := List.append_inj list (by simpa using aligned)
          exact ⟨rfl, sameHere, (List.cons.inj behind).2, later⟩
      | cons list others =>
          obtain ⟨rfl, -⟩ := List.cons.inj same
          simp only [List.flatten_cons, List.flatten_nil, List.length_append, List.length_cons,
            List.length_nil] at aligned
          omega
  | cons list earlier ih =>
      cases others with
      | nil =>
          obtain ⟨rfl, -⟩ := List.cons.inj same
          simp only [List.flatten_cons, List.flatten_nil, List.length_append, List.length_cons,
            List.length_nil] at aligned
          omega
      | cons first others =>
          obtain ⟨rfl, further⟩ := List.cons.inj same
          have closer : (earlier.flatten ++ here).length = (others.flatten ++ there).length := by
            simpa [Nat.add_assoc] using aligned
          obtain ⟨rfl, parts⟩ := ih further closer
          exact ⟨rfl, parts⟩

end

namespace LineClassifier

open Token

variable {atLineStart : Bool} {tokens before after : List Token} {tag : Token}
  {earlier later : List LineGroup} {group : LineGroup} {here rest : List LineToken}

namespace Formed

variable {pre post inside more : List LineToken} {other : Token}

theorem eq_nil_of_tags
    (formed : Formed (pre ++ .of .normal tag :: (inside ++ .of .normal other :: post)))
    (isTag : tag.isStandalone = true) (isOther : other.isStandalone = true) :
    pre = [] ∧ inside = [] ∧ post = [] := by
  obtain ⟨-, -, same⟩ | ⟨next, -, alone, same⟩ | ⟨line, -, -, same⟩ := formed.around isTag
  · cases List.append_eq_nil_iff.mp same |>.2
  · obtain ⟨rfl, last⟩ | ⟨rest, -, last⟩ := List.append_eq_cons_iff.mp same
    · exact ⟨alone, rfl, (List.cons.inj last).2⟩
    · cases List.append_eq_nil_iff.mp last.symm |>.2
  · have member : LineToken.of .normal other ∈
        (line.after.toList ++ [line.ending]).map (LineToken.of .ignore) := by
      rw [← same]
      simp
    exact absurd (LineToken.role_of_normal isOther)
      (LineToken.role_ne_of_mem (by decide) (by decide) _ member)

theorem dropWhile_behind (formed : Formed (pre ++ .of .normal tag :: post))
    (isTag : tag.isStandalone = true) (within : ∀ t ∈ post, t.token.isEof = false)
    (written : ∀ t ∈ more.head?, t.role ≠ .ignore) :
    (post ++ more).dropWhile (·.role = .ignore) = post.filter (·.role = .normal) ++ more := by
  obtain ⟨-, -, rfl⟩ | ⟨next, isNext, -, rfl⟩ | ⟨line, -, -, rfl⟩ := formed.around isTag
  · exact dropWhile_of_head written
  · have normal := LineToken.role_of_normal isNext
    simp [normal]
  · have ignored : ∀ t ∈ (line.after.toList ++ [line.ending]).map (LineToken.of .ignore),
        t.role = .ignore := by
      intro t member
      have inside := within t member
      obtain ⟨token, -, rfl⟩ := List.mem_map.mp member
      exact if_neg (by simpa [LineToken.of] using inside)
    rw [List.dropWhile_append_of_pos fun t member => by simpa using ignored t member,
      dropWhile_of_head written,
      List.filter_eq_nil_iff.mpr fun t member => by simp [ignored t member], List.nil_append]

theorem rdropWhile_front (formed : Formed (pre ++ .of .normal tag :: post))
    (isTag : tag.isStandalone = true) (within : ∀ t ∈ pre, t.token.isEof = false) :
    pre.rdropWhile (·.role = .indent) = pre.filter (·.role = .normal) := by
  have role (role : Role) {token : Token} (inside : token.isEof = false) :
      (LineToken.of role token).role = role := by simp [LineToken.of, inside]
  obtain ⟨first, rfl, -⟩ | ⟨next, -, rfl, -⟩ | ⟨line, -, rfl, -⟩ := formed.around isTag
  · cases first with
    | none => rfl
    | some token =>
        have normal : (LineToken.of .normal token).role = .normal :=
          role .normal (within (.of .normal token) (by simp))
        simp [List.rdropWhile_singleton, normal]
  · rfl
  · cases before : line.before with
    | none => rfl
    | some token =>
        rw [before] at within
        have indent : (LineToken.of .indent token).role = .indent :=
          role .indent (within (.of .indent token) (by simp))
        simp [List.rdropWhile_singleton, indent]

end Formed

theorem startsLine_of_drain (released : drain atLineStart tokens = earlier ++ group :: later)
    (several : 2 ≤ group.length) :
    (earlier = [] → atLineStart = true) ∧
      ∀ t ∈ earlier.flatten.getLast?, t.token.endsLine = true := by
  have last {next : Bool} {tokens : List Token} {first : LineGroup} {earlier : List LineGroup}
      (released : drain next tokens = earlier ++ group :: later)
      (starts : earlier = [] → ∀ t ∈ first.getLast?, t.token.endsLine = true)
      (ends : ∀ t ∈ earlier.flatten.getLast?, t.token.endsLine = true) :
      ∀ t ∈ (first :: earlier).flatten.getLast?, t.token.endsLine = true := by
    intro t member
    cases earlier with
    | nil => exact starts rfl t (by simpa using member)
    | cons second earlier =>
        have formed : Formed second :=
          formed_of_mem_drain
            (by rw [released]; exact List.mem_append_left _ (List.mem_cons_self ..))
        have filled : (second :: earlier).flatten ≠ [] := by simp [formed.ne_nil]
        rw [List.flatten_cons, List.getLast?_append_of_ne_nil _ filled] at member
        exact ends t member
  fun_induction drain atLineStart tokens generalizing earlier with
  | case1 => cases List.append_eq_nil_iff.mp released.symm |>.2
  | case2 atLineStart token =>
      exfalso
      cases earlier with
      | nil =>
          obtain ⟨rfl, -⟩ := List.cons.inj released
          simp [single] at several
      | cons first earlier => cases List.append_eq_nil_iff.mp (List.cons.inj released).2.symm |>.2
  | case3 atLineStart first second rest found next decided ih =>
      obtain rfl : atLineStart = true := by
        by_contra inside
        rw [eq_false_of_ne_true inside] at decided
        cases decided
      refine ⟨fun _ => rfl, ?_⟩
      cases earlier with
      | nil => simp
      | cons one earlier =>
          obtain ⟨rfl, further⟩ := List.cons.inj released
          obtain ⟨starts, ends⟩ := ih further
          refine last further (fun none t member => ?_) ends
          obtain rfl := starts none
          obtain ⟨_, _, _, -, -, -, -, -, inside⟩ | ⟨line, -, -, rfl, -⟩ := group?_cases decided
          · cases inside
          · rw [StandaloneLine.group, List.map_append, ← List.cons_append, ← List.append_assoc,
              List.map_singleton, List.getLast?_concat] at member
            obtain rfl := Option.some.inj member
            exact line.ending_endsLine
  | case4 atLineStart first second rest undecided ih =>
      cases earlier with
      | nil =>
          obtain ⟨rfl, -⟩ := List.cons.inj released
          simp [single] at several
      | cons one earlier =>
          obtain ⟨rfl, further⟩ := List.cons.inj released
          obtain ⟨starts, ends⟩ := ih further
          refine ⟨by simp, last further (fun none t member => ?_) ends⟩
          obtain rfl := Option.some.inj member
          exact starts none

theorem isAlone_iff_line (ends : EndsOnce (before ++ tag :: after))
    (isTag : tag.isStandalone = true)
    (released : drain true (before ++ tag :: after) =
      earlier ++ (here ++ .of .normal tag :: rest) :: later)
    (placed : (earlier.flatten ++ here).map LineToken.token = before) :
    isAlone before after = true ↔ ∃ line : StandaloneLine, line.tag = tag ∧
      here = line.before.toList.map (LineToken.of .indent) ∧
      rest = (line.after.toList ++ [line.ending]).map (LineToken.of .ignore) := by
  constructor
  · intro alone
    obtain ⟨whole, line, further, rfl, rfl, rfl, -, own⟩ := drain_alone ends isTag alone
    have aligned : (earlier.flatten ++ here).length =
        ((drain true whole).flatten ++ line.before.toList.map (LineToken.of .indent)).length := by
      rw [← List.length_map LineToken.token, placed, ← List.length_map LineToken.token,
        List.map_append, map_token_drain, map_token_map_of]
    rw [released, StandaloneLine.group] at own
    obtain ⟨-, same, behind, -⟩ := eq_of_flatten own aligned
    exact ⟨line, rfl, same, behind⟩
  · rintro ⟨line, rfl, rfl, rfl⟩
    obtain ⟨-, starts⟩ := startsLine_of_drain released (by
      simp only [List.length_append, List.length_cons, List.length_map, List.length_nil]
      omega)
    have whole := map_token_drain true (before ++ line.tag :: after)
    rw [released] at whole
    have behind : after = line.after.toList ++ line.ending ::
      later.flatten.map LineToken.token := by
      rw [List.flatten_append, List.flatten_cons, ← List.append_assoc, ← List.append_assoc,
        List.map_append, List.map_append, placed, List.append_assoc, List.map_cons,
        map_token_map_of] at whole
      have tail : (line.after.toList ++ [line.ending]) ++ later.flatten.map LineToken.token =
          after := (List.cons.inj (List.append_cancel_left whole)).2
      rw [← tail, List.append_assoc, List.singleton_append]
    have opens : opensBlank before = true := by
      rw [← placed, List.map_append, map_token_map_of]
      refine opensBlank_append line.before_isWhitespace fun token last => ?_
      rw [List.getLast?_map] at last
      obtain ⟨t, member, rfl⟩ := Option.map_eq_some_iff.mp last
      exact starts t member
    rw [isAlone, opens, behind, closesBlank_append line.after_isWhitespace line.ending_endsLine]
    rfl

end LineClassifier

end Stencil
