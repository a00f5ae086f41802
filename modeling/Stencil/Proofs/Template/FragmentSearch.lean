import Stencil.Proofs.Token.InGroup
import Stencil.Template.Fragment

/-!
Searches for fragments. Main statement: a search finds what stands between the first tag that opens
the fragment and the first end tag behind it at the same depth, and nothing if there are no such
tags.
-/

namespace Stencil

namespace Token

def depthAfter (depth : Nat) (token : Token) : Nat :=
  match token.kind with
  | .tag .close _ => depth - 1
  | .tag kind _ => if kind.isOpening then depth + 1 else depth
  | _ => depth

def depth (tokens : List Token) : Nat := tokens.foldl depthAfter 0

/-- That a token is the end tag of a construct. -/
def IsEnd (token : Token) : Prop := ∃ name, token.kind = .tag .close name

/-- That a token opens a section or a block of a name. -/
def Selects (name : String) (token : Token) : Prop :=
  token.kind = .tag .openSection name ∨ token.kind = .tag .openBlock name

variable {token : Token} {name : String}

theorem isEnd_iff : token.IsEnd ↔ token.tag?.any (·.1 = .close) = true := by
  obtain ⟨kind, position, raw⟩ := token
  cases kind <;> simp [IsEnd, tag?]

instance : Decidable token.IsEnd := decidable_of_iff _ isEnd_iff.symm

instance : Decidable (token.Selects name) := inferInstanceAs (Decidable (_ ∨ _))

theorem IsEnd.isStandalone (ends : token.IsEnd) : token.isStandalone = true := by
  obtain ⟨name, kind⟩ := ends
  rw [Token.isStandalone, kind]
  rfl

theorem Selects.isStandalone (selects : token.Selects name) : token.isStandalone = true := by
  obtain kind | kind := selects <;> rw [Token.isStandalone, kind] <;> rfl

theorem Selects.depthAfter (selects : token.Selects name) (depth : Nat) :
    token.depthAfter depth = depth + 1 := by
  obtain kind | kind := selects <;> rw [Token.depthAfter, kind] <;> rfl

theorem depth_append (front more : List Token) :
    depth (front ++ more) = more.foldl depthAfter (depth front) := List.foldl_append

theorem text_nil : text [] = "" := rfl

theorem join_raw (tokens : List Token) : String.join (tokens.map Token.raw) = text tokens := by
  induction tokens with
  | nil => rfl
  | cons token tokens ih => rw [List.map_cons, String.join_cons, ih, text_cons]

def indentation (before after : List Token) : List Token :=
  if isAlone before after then before.rtakeWhile isWhitespace else []

end Token

namespace Fragment

open LineClassifier Text Token

/-- A fragment of a template: its opening tag is the first that the name selects, and its end tag is
the first behind it that stands as deep as what is inside. -/
structure Located (name : String) (tokens front : List Token) (opening : Token) (inner : List Token)
    (closing : Token) (behind : List Token) : Prop where
  split : tokens = front ++ opening :: (inner ++ closing :: behind)
  selects : opening.Selects name
  first : ∀ token ∈ front, ¬ token.Selects name
  isEnd : closing.IsEnd
  level : depth (front ++ opening :: inner) = depth (front ++ [opening])
  deeper : ∀ inside other more, inner = inside ++ other :: more → other.IsEnd →
    depth (front ++ opening :: inside) ≠ depth (front ++ [opening])

section

variable {name : String} {tokens front inner behind : List Token} {opening closing : Token}

theorem located_iff : Located name tokens front opening inner closing behind ↔
    tokens = front ++ opening :: (inner ++ closing :: behind) ∧ opening.Selects name ∧
      (∀ token ∈ front, ¬ token.Selects name) ∧ closing.IsEnd ∧
      depth (front ++ opening :: inner) = depth (front ++ [opening]) ∧
      ∀ n < inner.length, ∀ other ∈ inner[n]?, other.IsEnd →
        depth (front ++ opening :: inner.take n) ≠ depth (front ++ [opening]) := by
  constructor
  · rintro ⟨split, selects, first, isEnd, level, deeper⟩
    refine ⟨split, selects, first, isEnd, level, fun n within other found => ?_⟩
    obtain ⟨within, rfl⟩ := List.getElem?_eq_some_iff.mp found
    exact deeper (inner.take n) _ (inner.drop (n + 1))
      (by rw [← List.drop_eq_getElem_cons, List.take_append_drop])
  · rintro ⟨split, selects, first, isEnd, level, deeper⟩
    refine ⟨split, selects, first, isEnd, level, ?_⟩
    rintro inside other more rfl
    simpa using deeper inside.length (by simp) other (by simp)

instance : Decidable (Located name tokens front opening inner closing behind) :=
  decidable_of_iff _ located_iff.symm

end

namespace Search

variable {name : String} {s : Search} {t : LineToken} {line more : List LineToken}
  {groups : List LineGroup} {selected : Selected}

def keepAll (s : Search) (line : List LineToken) : Search := line.foldl keep s

theorem keepAll_eq (s : Search) (line : List LineToken) :
    s.keepAll line = { s with
      line := s.line ++ line
      lineIndent := line.foldl
        (fun indent t => if t.role = .indent then t.token.raw else indent) s.lineIndent } := by
  induction line generalizing s with
  | nil => simp [keepAll]
  | cons t line ih =>
      rw [keepAll, List.foldl_cons, ← keepAll, ih, keep]
      simp

/-- That a search comes through some tokens: none of them opens the fragment, or ends it. -/
structure Passes (name : String) (s : Search) (tokens : List Token) : Prop where
  searching : s.found = none
  outside : s.selected = none → ∀ token ∈ tokens, ¬ token.Selects name
  inside : ∀ selected ∈ s.selected, ∀ before closing more, tokens = before ++ closing :: more →
    closing.IsEnd → before.foldl depthAfter s.depth ≠ selected.depth

theorem Passes.append {front more : List Token} (passes : Passes name s (front ++ more)) :
    Passes name s front ∧ ∀ next : Search, next.found = none → next.selected = s.selected →
      next.depth = front.foldl depthAfter s.depth → Passes name next more := by
  refine ⟨⟨passes.searching, fun none token member => ?_, ?_⟩, fun next searching same level =>
    ⟨searching, fun none token member => ?_, ?_⟩⟩
  · exact passes.outside none token (List.mem_append_left _ member)
  · rintro selected isSelected before closing rest rfl
    exact passes.inside selected isSelected before closing (rest ++ more) (by simp)
  · exact passes.outside (same.symm.trans none) token (List.mem_append_right _ member)
  · rintro selected isSelected before closing rest rfl isEnd
    rw [level, ← List.foldl_append]
    rw [same] at isSelected
    exact passes.inside selected isSelected (front ++ before) closing rest (by simp) isEnd

theorem step_keep (passes : Passes name s [t.token]) :
    step name s t = { s.keep t with depth := t.token.depthAfter s.depth } := by
  obtain ⟨⟨kind, position, raw⟩, role⟩ := t
  have searching : ¬ s.found.isSome = true := by simp [passes.searching]
  rw [step, if_neg searching]
  cases kind with
  | tag kind other =>
      cases kind with
      | close =>
          have apart : s.selected.filter (·.depth = s.depth) = none := by
            refine Option.filter_eq_none_iff.mpr fun selected isSelected => ?_
            simpa [eq_comm] using passes.inside selected isSelected [] _ [] rfl ⟨other, rfl⟩
          simp only [apart]
          rfl
      | openSection =>
          refine (if_pos rfl).trans (if_neg ?_)
          rintro ⟨none, -, rfl⟩
          exact passes.outside (Option.isNone_iff_eq_none.mp none) _ (List.mem_singleton_self _)
            (.inl rfl)
      | openBlock =>
          refine (if_pos rfl).trans (if_neg ?_)
          rintro ⟨none, -, rfl⟩
          exact passes.outside (Option.isNone_iff_eq_none.mp none) _ (List.mem_singleton_self _)
            (.inr rfl)
      | openInverted | openParent =>
          exact (if_pos rfl).trans (if_neg fun selects => by simp at selects)
      | _ => rfl
  | _ => rfl

theorem foldl_step_keep (passes : Passes name s (line.map LineToken.token)) :
    line.foldl (step name) s =
      { s.keepAll line with depth := (line.map LineToken.token).foldl depthAfter s.depth } := by
  induction line generalizing s with
  | nil => rfl
  | cons t line ih =>
      have split : Passes name s ([t.token] ++ line.map LineToken.token) := passes
      obtain ⟨here, further⟩ := split.append
      have rest := ih (further { s.keep t with depth := t.token.depthAfter s.depth } here.searching
        rfl rfl)
      rw [List.foldl_cons, step_keep here, rest]
      simp [keepAll_eq, keep]

theorem step_selects (searching : s.found = none) (outside : s.selected = none)
    (selects : t.token.Selects name) :
    step name s t = { s with
      depth := s.depth + 1, selected := some ⟨s.depth + 1, s.lineIndent⟩, line := [],
      lineIndent := "", openedHere := true } := by
  obtain ⟨⟨kind, position, raw⟩, role⟩ := t
  rw [step, if_neg (by simp [searching])]
  obtain rfl | rfl : kind = .tag .openSection name ∨ kind = .tag .openBlock name := selects
  · exact (if_pos rfl).trans (if_pos ⟨by simp [outside], .inl rfl, rfl⟩)
  · exact (if_pos rfl).trans (if_pos ⟨by simp [outside], .inr rfl, rfl⟩)

theorem step_end (searching : s.found = none) (inside : s.selected = some selected)
    (level : s.depth = selected.depth) (isEnd : t.token.IsEnd) :
    step name s t =
      { s with found := some (outdent (s.body ++ normalText s.line) selected.indent) } := by
  obtain ⟨⟨kind, position, raw⟩, role⟩ := t
  obtain ⟨other, rfl⟩ : ∃ other, kind = .tag .close other := isEnd
  rw [step, if_neg (by simp [searching])]
  have here : s.selected.filter (·.depth = s.depth) = some selected := by
    rw [inside]
    simp [level]
  simp only [here]

theorem foldl_step_found (found : s.found.isSome = true) (line : List LineToken) :
    line.foldl (step name) s = s := by
  induction line with
  | nil => rfl
  | cons t line ih => rw [List.foldl_cons, step, if_pos found, ih]

theorem found_foldl (found : s.found.isSome = true) (groups : List LineGroup) :
    (groups.foldl (group name) s).found = s.found := by
  induction groups generalizing s with
  | nil => rfl
  | cons g groups ih =>
      have same : (group name s g).found = s.found := by
        rw [group, foldl_step_found found]
        rfl
      rw [List.foldl_cons, ih (by rwa [same]), same]

def idle (depth : Nat) (selected : Option Selected) (body : String) : Search :=
  ⟨depth, selected, body, [], "", false, none⟩

theorem passes_outside (depth : Nat) (body : String) {tokens : List Token}
    (outside : ∀ token ∈ tokens, ¬ token.Selects name) :
    Passes name (idle depth none body) tokens :=
  ⟨rfl, fun _ => outside, fun _ isSelected => nomatch isSelected⟩

theorem group_keep {depth : Nat} {selected : Option Selected} {body : String} {g : LineGroup}
    (passes : Passes name (idle depth selected body) (g.map LineToken.token)) :
    group name (idle depth selected body) g =
      idle ((g.map LineToken.token).foldl depthAfter depth) selected
        (body ++ if selected.isNone then "" else fullText g) := by
  rw [group, foldl_step_keep passes, keepAll_eq]
  rfl

theorem fullText_append (line more : List LineToken) :
    fullText (line ++ more) = fullText line ++ fullText more := by
  simp [fullText]

theorem foldl_group_keep {depth : Nat} {selected : Option Selected} {body : String}
    (passes : Passes name (idle depth selected body) (groups.flatten.map LineToken.token)) :
    groups.foldl (group name) (idle depth selected body) =
      idle ((groups.flatten.map LineToken.token).foldl depthAfter depth) selected
        (body ++ if selected.isNone then "" else fullText groups.flatten) := by
  induction groups generalizing depth body with
  | nil => simp [fullText]
  | cons g groups ih =>
      rw [List.flatten_cons, List.map_append] at passes
      obtain ⟨here, further⟩ := passes.append
      have rest (body : String) := ih (further
        (idle ((g.map LineToken.token).foldl depthAfter depth) selected body) rfl rfl rfl)
      rw [List.foldl_cons, group_keep here, rest, List.flatten_cons, List.map_append,
        List.foldl_append, fullText_append, String.append_assoc]
      cases selected <;> simp

def indentText (line : List LineToken) : String :=
  line.foldl (fun indent t => if t.role = .indent then t.token.raw else indent) ""

def entered (selected : Selected) : Search :=
  ⟨selected.depth, some selected, "", [], "", true, none⟩

variable {depth : Nat} {pre post rest : List LineToken} {o c : LineToken}

theorem foldl_step_selects (passes : Passes name (idle depth none "") (pre.map LineToken.token))
    (selects : o.token.Selects name) :
    (pre ++ [o]).foldl (step name) (idle depth none "") =
      entered ⟨(pre.map LineToken.token).foldl depthAfter depth + 1, indentText pre⟩ := by
  rw [List.foldl_append, foldl_step_keep passes, List.foldl_cons, List.foldl_nil,
    step_selects (by rw [keepAll_eq]; rfl) (by rw [keepAll_eq]; rfl) selects, keepAll_eq]
  rfl

theorem endGroup_entered (passes : Passes name (entered selected) (post.map LineToken.token)) :
    (post.foldl (step name) (entered selected)).endGroup =
      idle ((post.map LineToken.token).foldl depthAfter selected.depth) (some selected)
        (normalText post) := by
  rw [foldl_step_keep passes, keepAll_eq]
  simp [entered, endGroup, idle]

theorem found_of_end (passes : Passes name s (line.map LineToken.token))
    (inside : s.selected = some selected)
    (level : (line.map LineToken.token).foldl depthAfter s.depth = selected.depth)
    (isEnd : c.token.IsEnd) (rest : List LineToken) (groups : List LineGroup) :
    (groups.foldl (group name) ((line ++ c :: rest).foldl (step name) s).endGroup).found =
      some (outdent (s.body ++ normalText (s.line ++ line)) selected.indent) := by
  have ended : ((line ++ c :: rest).foldl (step name) s).endGroup.found =
      some (outdent (s.body ++ normalText (s.line ++ line)) selected.indent) := by
    have here : step name (line.foldl (step name) s) c =
        { line.foldl (step name) s with
          found := some (outdent (s.body ++ normalText (s.line ++ line)) selected.indent) } := by
      rw [foldl_step_keep passes, keepAll_eq]
      exact step_end passes.searching inside level isEnd
    rw [List.foldl_append, List.foldl_cons, here, foldl_step_found rfl]
    rfl
  rw [found_foldl (by rw [ended]; rfl), ended]

theorem normalText_eq (line : List LineToken) :
    normalText line = text ((line.filter (·.role = .normal)).map LineToken.token) := by
  rw [normalText, ← join_raw, List.map_map]
  rfl

theorem fullText_eq (line : List LineToken) : fullText line = text (line.map LineToken.token) := by
  rw [fullText, ← join_raw, List.map_map]
  rfl

theorem indentText_eq {tag : Token} (formed : Formed (pre ++ .of .normal tag :: post))
    (isTag : tag.isStandalone = true) (within : ∀ t ∈ pre, t.token.isEof = false) :
    indentText pre = text ((pre.rtakeWhile (·.role = .indent)).map LineToken.token) := by
  obtain ⟨first, rfl, -⟩ | ⟨next, -, rfl, -⟩ | ⟨line, -, rfl, -⟩ := formed.around isTag
  · cases first with
    | none => rfl
    | some token =>
        have apart : (LineToken.of .normal token).role ≠ .indent :=
          LineToken.role_ne (by decide) (by decide) token
        simp [indentText, List.rtakeWhile, apart, text_nil]
  · rfl
  · cases before : line.before with
    | none => rfl
    | some token =>
        have inside : token.isEof = false := within (.of .indent token) (by simp [before])
        have indent : (LineToken.of .indent token).role = .indent := by simp [LineToken.of, inside]
        have raw : indentText [.of .indent token] = token.raw := if_pos indent
        have kept : [LineToken.of .indent token].rtakeWhile (·.role = .indent) =
            [.of .indent token] := by simp [List.rtakeWhile, indent]
        rw [Option.toList_some, List.map_singleton, raw, kept, List.map_singleton, text_cons,
          text_nil, String.append_empty]
        rfl

end Search

theorem map_token_rtakeWhile {before after : List Token} {tag : Token} {left right : List LineToken}
    {t : LineToken} (ends : EndsOnce (before ++ tag :: after)) (isTag : tag.isStandalone = true)
    (split : (drain true (before ++ tag :: after)).flatten = left ++ t :: right)
    (same : left.map LineToken.token = before) :
    (left.rtakeWhile (·.role = .indent)).map LineToken.token = indentation before after := by
  have dropped := map_token_rdropWhile ends isTag split same
  have parts : (left.rdropWhile (·.role = .indent)).map LineToken.token ++
      (left.rtakeWhile (·.role = .indent)).map LineToken.token = before := by
    rw [← List.map_append, List.rdropWhile_append_rtakeWhile, same]
  rw [dropped] at parts
  rw [indentation]
  split at parts
  · next alone =>
      rw [if_pos alone]
      exact List.append_cancel_left (parts.trans List.rdropWhile_append_rtakeWhile.symm)
  · next apart =>
      rw [if_neg apart]
      exact List.append_right_eq_self.mp parts

section

variable {name : String} {front inner : List Token} {opening closing : Token}
  {earlier later : List LineGroup} {pre post here rest : List LineToken}

theorem depth_opening (selects : opening.Selects name) :
    depth (front ++ [opening]) = depth front + 1 := by
  rw [depth_append, List.foldl_cons, List.foldl_nil, selects.depthAfter]

theorem foldl_depth (selects : opening.Selects name) (inside : List Token) :
    inside.foldl depthAfter (depth front + 1) = depth (front ++ opening :: inside) := by
  rw [List.append_cons, depth_append, depth_opening selects]

theorem passes_inside (selects : opening.Selects name)
    (deeper : ∀ inside other more, inner = inside ++ other :: more → other.IsEnd →
      depth (front ++ opening :: inside) ≠ depth (front ++ [opening])) (indent : String) :
    Search.Passes name (.entered ⟨depth front + 1, indent⟩) inner := by
  refine ⟨rfl, fun outside => (by cases outside), ?_⟩
  intro selected isSelected before other more split isEnd
  obtain rfl := Option.some.inj isSelected
  have apart := deeper before other more split isEnd
  rwa [depth_opening selects, ← foldl_depth selects] at apart

theorem foldl_opening (selects : opening.Selects name)
    (first : ∀ token ∈ front, ¬ token.Selects name)
    (sameFront : (earlier.flatten ++ pre).map LineToken.token = front) :
    (earlier ++ (pre ++ .of .normal opening :: post) :: later).foldl (Search.group name) .start =
      later.foldl (Search.group name) (post.foldl (Search.step name)
        (.entered ⟨depth front + 1, Search.indentText pre⟩)).endGroup := by
  rw [← sameFront, List.map_append] at first
  obtain ⟨passesEarlier, passesPre⟩ := (Search.passes_outside 0 "" first).append
  generalize level : (earlier.flatten.map LineToken.token).foldl depthAfter 0 = outer at passesPre
  have start : earlier.foldl (Search.group name) .start = .idle outer none "" := by
    rw [← level]
    exact Search.foldl_group_keep passesEarlier
  have deeper : (pre.map LineToken.token).foldl depthAfter outer = depth front := by
    rw [← level, ← List.foldl_append, ← List.map_append, sameFront]
    rfl
  have opened := Search.foldl_step_selects (o := .of .normal opening)
    (passesPre (.idle outer none "") rfl rfl level.symm) selects
  rw [List.foldl_append, start, List.foldl_cons, Search.group, List.append_cons, List.foldl_append,
    opened, deeper]

theorem kept_eq (formedHere : Formed (pre ++ .of .normal opening :: post))
    (formed : ∀ group ∈ earlier ++ (here ++ .of .normal closing :: rest) :: later, Formed group)
    (opens : opening.isStandalone = true) (closes : closing.isStandalone = true)
    (within : ∀ t ∈ post ++ (earlier.flatten ++ here), t.token.isEof = false) :
    ((post ++ (earlier.flatten ++ here)).dropWhile (·.role = .ignore)).rdropWhile
        (·.role = .indent) =
      post.filter (·.role = .normal) ++ earlier.flatten ++ here.filter (·.role = .normal) := by
  obtain ⟨withinPost, withinInner⟩ := List.forall_mem_append.mp within
  obtain ⟨formedEarlier, formedLater⟩ := List.forall_mem_append.mp formed
  have written : ∀ t ∈ (earlier.flatten ++ here).head?, t.role ≠ .ignore := by
    intro t first
    refine role_head_flatten formed t ?_
    obtain ⟨more, same⟩ := List.head?_eq_some_iff.mp first
    rw [List.flatten_append, List.flatten_cons, ← List.append_assoc, ← List.append_assoc, same]
    rfl
  have last : ∀ t ∈ (post.filter (·.role = .normal) ++ earlier.flatten).getLast?,
      decide (t.role = .indent) = false := by
    intro t last
    rw [List.getLast?_append] at last
    obtain final | ⟨-, final⟩ := Option.or_eq_some_iff.mp last
    · simpa using role_getLast_flatten formedEarlier t final
    · have normal := (List.mem_filter.mp (List.mem_of_getLast? final)).2
      simp [of_decide_eq_true normal]
  rw [formedHere.dropWhile_behind opens withinPost written, ← List.append_assoc,
    rdropWhile_append_of_getLast last,
    (formedLater _ (List.mem_cons_self ..)).rdropWhile_front closes
      fun t member => withinInner t (List.mem_append_right _ member)]

end

namespace Located

variable {name : String} {tokens front inner behind : List Token} {opening closing : Token}

theorem depth_inner (located : Located name tokens front opening inner closing behind) :
    inner.foldl depthAfter (depth front + 1) = depth front + 1 := by
  rw [foldl_depth located.selects, located.level, depth_opening located.selects]

variable {later : List LineGroup} {pre post inside right : List LineToken}

theorem found_behind (located : Located name tokens front opening inner closing behind)
    (formedHere : Formed (pre ++ .of .normal opening :: post))
    (formedLater : ∀ group ∈ later, Formed group)
    (split : post ++ later.flatten = inside ++ .of .normal closing :: right)
    (sameInner : inside.map LineToken.token = inner) (within : ∀ t ∈ inside, t.token.isEof = false)
    (indent : String) :
    (later.foldl (Search.group name)
        (post.foldl (Search.step name) (.entered ⟨depth front + 1, indent⟩)).endGroup).found =
      some (outdent (text (((inside.dropWhile (·.role = .ignore)).rdropWhile
        (·.role = .indent)).map LineToken.token)) indent) := by
  have opens := located.selects.isStandalone
  have closes := located.isEnd.isStandalone
  have passes := passes_inside located.selects located.deeper indent
  have level := located.depth_inner
  rw [← sameInner] at passes level
  obtain ⟨back, rfl, rest⟩ | ⟨back, rfl, -⟩ := append_eq_append_cons split
  · obtain ⟨middle, here, back, later, rfl, rfl, -⟩ := exists_list_of_flatten rest
    have kept := kept_eq formedHere formedLater opens closes within
    rw [List.map_append, List.map_append, List.foldl_append, List.foldl_append] at level
    rw [List.map_append] at passes
    obtain ⟨passesPost, passes⟩ := passes.append
    have first := Search.endGroup_entered passesPost
    have passes := passes (.idle ((post.map LineToken.token).foldl depthAfter (depth front + 1))
      (some ⟨depth front + 1, indent⟩) (Search.normalText post)) rfl rfl rfl
    rw [List.map_append] at passes
    obtain ⟨passesMiddle, passesHere⟩ := passes.append
    have between := Search.foldl_group_keep passesMiddle
    have ended (body : String) := Search.found_of_end (passesHere (.idle _
      (some ⟨depth front + 1, indent⟩) body) rfl rfl rfl) rfl level (c := .of .normal closing)
        located.isEnd back later
    rw [List.foldl_append, first, between, List.foldl_cons, Search.group]
    refine (ended _).trans ?_
    rw [kept]
    simp only [Search.idle, Search.normalText_eq, Search.fullText_eq, Option.isNone_some,
      Bool.false_eq_true, if_false, List.nil_append, List.map_append, text_append]
  · obtain ⟨rfl, rfl, rfl⟩ := formedHere.eq_nil_of_tags opens closes
    have ended :=
      Search.found_of_end passes rfl rfl (c := .of .normal closing) located.isEnd [] later
    exact ended

/-- The fragment is what stands between its tags. -/
theorem found_eq (located : Located name tokens front opening inner closing behind)
    (ends : EndsOnce tokens) :
    ((groupsOf tokens).foldl (Search.group name) .start).found =
      some (outdent (text (between front opening inner closing behind))
        (text (indentation front (inner ++ closing :: behind)))) := by
  have opens := located.selects.isStandalone
  have closes := located.isEnd.isStandalone
  obtain rfl := located.split
  have roles {t : LineToken} := of_normal_of_mem (t := t) ends
  rw [groupsOf_eq_drain ends] at roles ⊢
  have formed : ∀ group ∈ drain true (front ++ opening :: (inner ++ closing :: behind)),
      Formed group := fun group member => formed_of_mem_drain member
  -- The tags as they are in their groups.
  obtain ⟨left, more, split, sameFront, atOpening⟩ := List.map_eq_append_iff.mp
    (map_token_drain true (front ++ opening :: (inner ++ closing :: behind)))
  obtain ⟨o, more, rfl, rfl, atInner⟩ := List.map_eq_cons_iff.mp atOpening
  obtain ⟨inside, more, rfl, sameInner, atClosing⟩ := List.map_eq_append_iff.mp atInner
  obtain ⟨c, right, rfl, rfl, rfl⟩ := List.map_eq_cons_iff.mp atClosing
  have opensNormal : LineToken.of .normal o.token = o := roles (by rw [split]; simp) opens
  have closesNormal : LineToken.of .normal c.token = c := roles (by rw [split]; simp) closes
  obtain ⟨within, -, withinInner⟩ : (∀ token ∈ front, token.isEof = false) ∧ _ ∧
      ∀ token ∈ inner, token.isEof = false := by
    rw [← List.cons_append, ← List.append_assoc] at ends
    simpa only [List.forall_mem_append, List.forall_mem_cons] using ends.isEof_of_mem (by simp)
  have kept := map_token_between ends opens closes split sameFront sameInner
  have indent := map_token_rtakeWhile ends opens split sameFront
  obtain ⟨earlier, pre, post, later, groups, rfl, rest⟩ := exists_list_of_flatten split
  rw [groups] at formed ⊢
  obtain ⟨formedEarlier, formedHere, formedLater⟩ :
      (∀ group ∈ earlier, Formed group) ∧ Formed (pre ++ o :: post) ∧
        ∀ group ∈ later, Formed group := by
    simpa only [List.forall_mem_append, List.forall_mem_cons] using formed
  rw [← opensNormal] at formedHere ⊢
  rw [← closesNormal] at rest
  have noEof (t : LineToken) (member : t ∈ pre) : t.token.isEof = false :=
    within t.token (by rw [← sameFront]; exact List.mem_map_of_mem (List.mem_append_right _ member))
  have indented : Search.indentText pre = text (indentation front (inner ++ c.token ::
      right.map LineToken.token)) := by
    rw [Search.indentText_eq formedHere opens noEof, ← indent, rtakeWhile_append_of_getLast]
    simpa using role_getLast_flatten formedEarlier
  rw [foldl_opening located.selects located.first sameFront,
    located.found_behind formedHere formedLater rest.symm sameInner (fun t member =>
      withinInner t.token (by rw [← sameInner]; exact List.mem_map_of_mem member)), kept, indented]
  rfl

end Located

theorem exists_first {α : Type} (p : List α → α → Prop) (list : List α) :
    (∀ before item more, list = before ++ item :: more → ¬ p before item) ∨
      ∃ before item more, list = before ++ item :: more ∧ p before item ∧
        ∀ inside other rest, before = inside ++ other :: rest → ¬ p inside other := by
  induction list generalizing p with
  | nil => exact .inl fun before item more same => nomatch List.append_eq_nil_iff.mp same.symm |>.2
  | cons first list ih =>
      by_cases here : p [] first
      · refine .inr ⟨[], first, list, rfl, here, fun inside other rest same => ?_⟩
        cases List.append_eq_nil_iff.mp same.symm |>.2
      obtain none | ⟨before, item, more, rfl, found, sooner⟩ := ih fun before => p (first :: before)
      · refine .inl fun before item more same => ?_
        obtain _ | ⟨_, before⟩ := before
        · obtain ⟨rfl, -⟩ := List.cons.inj same
          exact here
        · obtain ⟨rfl, behind⟩ := List.cons.inj same
          exact none before item more behind
      · refine .inr ⟨first :: before, item, more, rfl, found, fun inside other rest same => ?_⟩
        obtain _ | ⟨_, inside⟩ := inside
        · obtain ⟨rfl, -⟩ := List.cons.inj same
          exact here
        · obtain ⟨rfl, behind⟩ := List.cons.inj same
          exact sooner inside other rest behind

theorem found_eq_none {name : String} {tokens : List Token} (ends : EndsOnce tokens)
    (missing : ∀ front opening inner closing behind,
      ¬ Located name tokens front opening inner closing behind) :
    ((groupsOf tokens).foldl (Search.group name) .start).found = none := by
  have whole := map_token_groupsOf ends
  obtain none | ⟨front, opening, rest, rfl, selects, first⟩ :=
    exists_first (fun _ token => token.Selects name) tokens
  · have outside : ∀ token ∈ (groupsOf tokens).flatten.map LineToken.token,
        ¬ token.Selects name := by
      intro token member
      rw [whole] at member
      obtain ⟨before, more, split⟩ := List.append_of_mem member
      exact none before token more split
    have start := Search.foldl_group_keep (Search.passes_outside 0 "" outside)
    exact congrArg Search.found start
  have first : ∀ token ∈ front, ¬ token.Selects name := by
    intro token member
    obtain ⟨before, more, split⟩ := List.append_of_mem member
    exact first before token more split
  obtain none | ⟨inner, closing, behind, rfl, ⟨isEnd, level⟩, deeper⟩ :=
    exists_first (fun inside other => other.IsEnd ∧
      depth (front ++ opening :: inside) = depth (front ++ [opening])) rest
  · obtain ⟨left, more, split, sameFront, atOpening⟩ := List.map_eq_append_iff.mp whole
    obtain ⟨o, right, rfl, rfl, sameRest⟩ := List.map_eq_cons_iff.mp atOpening
    have normal := of_normal_of_mem ends (t := o) (by rw [split]; simp) selects.isStandalone
    obtain ⟨earlier, pre, post, later, groups, rfl, rfl⟩ := exists_list_of_flatten split
    have passes := passes_inside selects (fun inside other more split isEnd level =>
      none inside other more split ⟨isEnd, level⟩) (Search.indentText pre)
    rw [← sameRest, List.map_append] at passes
    obtain ⟨passesPost, passesLater⟩ := passes.append
    have last := Search.foldl_group_keep (passesLater (.idle
      ((post.map LineToken.token).foldl depthAfter (depth front + 1))
      (some ⟨depth front + 1, Search.indentText pre⟩) (Search.normalText post)) rfl rfl rfl)
    rw [groups, ← normal, foldl_opening selects first sameFront, Search.endGroup_entered passesPost]
    exact congrArg Search.found last
  · exact absurd ⟨rfl, selects, first, isEnd, level, fun inside other more split isEnd level =>
      deeper inside other more split ⟨isEnd, level⟩⟩ (missing front opening inner closing behind)

end Fragment

end Stencil
