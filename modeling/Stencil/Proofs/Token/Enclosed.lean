import Stencil.Proofs.Token.Excerpt

/-!
Texts with a section in them. Main statement: what stands between the tags of a section and what
stands behind it are read by themselves, if the tag that opens it is written with the standard
delimiters and is read as a tag.
-/

namespace Stencil

def TokenError.unplaced (error : TokenError) : TokenError := { error with line := 0, column := 0 }

def unplacedTokens (result : Except TokenError (List Token)) : Except TokenError (List Token) :=
  (result.map (List.map Token.unplaced)).mapError TokenError.unplaced

theorem unplacedTokens_append (front : List Token) (result : Except TokenError (List Token)) :
    unplacedTokens (result.map (front ++ ·)) =
      (unplacedTokens result).map (front.map Token.unplaced ++ ·) := by
  cases result with
  | error error => rfl
  | ok tokens => exact congrArg Except.ok List.map_append

namespace Lexeme

variable {d inside : Delimiters} {body : List Token} {token : Token} {c : Char}
  {more text tail cs opening : List Char} {l : Lexeme} {name : String}

theorem endsText_extended {last : List Char} (filled : last ≠ []) (further : text ≠ [])
    (long : opening.length ≤ text.length) (goes : endsText opening (last ++ text) = false)
    (tail : List Char) : endsText opening (last ++ (text ++ tail)) = false := by
  obtain ⟨c, rest, rfl⟩ := List.exists_cons_of_ne_nil filled
  have within : opening.length ≤ (c :: (rest ++ text)).length := by
    simp only [List.length_cons, List.length_append]
    omega
  have nonempty : rest ++ text ≠ [] := by simp [further]
  rw [List.cons_append] at goes ⊢
  rw [← List.append_assoc]
  simp only [endsText] at goes ⊢
  split at goes
  · cases goes
  · next ordinary =>
      rw [if_neg ordinary]
      split at goes
      · next carriage =>
          rw [if_pos carriage, List.head?_append_of_ne_nil _ nonempty]
          exact goes
      · next other =>
          rw [if_neg other]
          by_contra opens
          rw [Bool.not_eq_false, List.isPrefixOf_iff_prefix, ← List.cons_append] at opens
          have sooner := List.prefix_of_prefix_length_le opens (List.prefix_append _ tail) within
          rw [List.isPrefixOf_iff_prefix.mpr sooner] at goes
          cases goes

theorem ahead_extended (read : ahead d c (more ++ text) = .ok l) (raw : l.raw = c :: more)
    (long : l.delimiters = d → d.opening.length ≤ text.length) (tail : List Char) :
    ahead d c (more ++ (text ++ tail)) = .ok { l with rest := text ++ tail } := by
  cases opens : Text.after? d.opening (c :: (more ++ text)) with
  | some after =>
      simp only [ahead, opens] at read
      obtain ⟨inner, -, spelled, -, again⟩ := ofTag_local read
      rw [raw] at spelled
      have still : c :: (more ++ (text ++ tail)) = d.opening ++ (inner ++ (text ++ tail)) := by
        rw [← List.cons_append, spelled, List.append_assoc]
      rw [ahead, still, Text.after?_append]
      exact again (text ++ tail)
  | none =>
      simp only [ahead, opens, Except.ok.injEq] at read
      subst read
      have enough := long (delimiters_plain ..)
      have filled : text ≠ [] := by
        rintro rfl
        exact d.opening_ne_nil (List.length_eq_zero_iff.mp (Nat.le_zero.mp enough))
      have closed : Text.after? d.opening (c :: (more ++ (text ++ tail))) = none := by
        have far : d.opening.length ≤ (c :: (more ++ text)).length := by
          simp only [List.length_cons, List.length_append]
          omega
        rw [← List.append_nil (c :: (more ++ text))] at opens
        simpa using Text.after?_of_append far tail opens
      have blank : startsBlank text = startsBlank (text ++ tail) := by
        obtain ⟨first, others, rfl⟩ := List.exists_cons_of_ne_nil filled
        rfl
      rw [ahead, closed]
      exact congrArg Except.ok (plain_apart raw opens
        (fun last _ nonempty goes => endsText_extended nonempty filled enough goes tail)
        (fun ends => endsText_append filled ends tail) blank)

theorem ReadsFrom.length_opening_le (reads : ReadsFrom d body inside text) :
    d.opening.length ≤ (chars body ++ inside.opening).length := by
  induction reads with
  | nil => exact Nat.le_refl _
  | @cons d inside token tokens c more rest l raw read kind whole _ ih =>
      rw [chars_cons, List.append_assoc, List.length_append, raw]
      cases opens : Text.after? d.opening (c :: (more ++ (chars tokens ++ rest))) with
      | some after =>
          simp only [ahead, opens] at read
          obtain ⟨inner, -, spelled, -⟩ := ofTag_local read
          rw [whole] at spelled
          rw [spelled, List.length_append]
          omega
      | none =>
          simp only [ahead, opens, Except.ok.injEq] at read
          rw [← read, delimiters_plain] at ih
          omega

theorem ReadsFrom.extend (reads : ReadsFrom d body inside text)
    (long : inside.opening.length ≤ text.length) (tail : List Char) :
    ReadsFrom d body inside (text ++ tail) := by
  induction reads with
  | nil => exact .nil
  | @cons d inside token tokens c more rest l raw read kind whole further ih =>
      have enough : l.delimiters = d → d.opening.length ≤ (chars tokens ++ rest).length := by
        intro kept
        have known := further.length_opening_le
        rw [kept] at known
        rw [List.length_append] at known ⊢
        omega
      have longer := ahead_extended read whole enough tail
      rw [List.append_assoc] at longer
      exact .cons raw longer kind whole (ih long)

theorem eq_standard_of_isWritten {rest : List Char}
    (written : (TokenKind.tag .openSection name).IsWritten d
      (TagKind.openSection.write name).toList rest) : d = .standard := by
  generalize same : (TagKind.openSection.write name).toList = raw at written
  obtain ⟨padded, -, -⟩ | _ := written
  rename_i content
  obtain ⟨filled, letters, left, right, rfl, blank⟩ := padded
  rw [TagKind.toList_write] at same
  have spelled : d.opening ++ ('#' :: ((left ++ name.toList ++ right) ++ d.closing)) =
      ['\x7b', '\x7b'] ++ '#' :: (name.toList ++ Delimiters.standard.closing) := by
    have sigil : TagKind.openSection.sigil.toList = ['#'] := rfl
    simpa [sigil] using same.symm
  obtain ⟨opening, inner⟩ : d.opening = ['\x7b', '\x7b'] ∧
      (left ++ name.toList ++ right) ++ d.closing = name.toList ++ Delimiters.standard.closing := by
    obtain ⟨rest, opening, inner⟩ | ⟨rest, -, inner⟩ := append_eq_append_cons spelled
    · cases rest with
      | nil => exact ⟨by simpa using opening.symm, (List.cons.inj inner).2⟩
      | cons first rest =>
          obtain rfl := (List.cons.inj inner).1
          have member : '#' ∈ ['\x7b', '\x7b'] := by simp [opening]
          simp at member
    · have counted := congrArg (List.count '#') inner
      have none : Delimiters.standard.closing.count '#' = 0 := by decide
      simp only [List.count_append, List.count_cons_self, none] at counted
      omega
  cases left with
  | cons first left =>
      obtain ⟨c, others, spelled⟩ := List.exists_cons_of_ne_nil
        (show name.toList ≠ [] by simpa using filled)
      have letter := letters c (by simp [spelled])
      rw [spelled] at inner
      obtain rfl : first = c := (List.cons.inj inner).1
      cases letter.symm.trans (blank first (by simp))
  | nil =>
      rw [List.nil_append, List.append_assoc] at inner
      have closing := List.append_cancel_left inner
      cases right with
      | nil =>
          exact Delimiters.eq_of_texts (congrArg₂ Prod.mk (congrArg String.ofList opening)
            (congrArg String.ofList closing))
      | cons first right =>
          obtain rfl : first = '\x7d' := (List.cons.inj closing).1
          cases blank '\x7d' (by simp)

theorem isTagName_of_ahead {rest : List Char} (read : ahead .standard '\x7b' rest = .ok l)
    (tag : l.kind = .tag .openSection name)
    (raw : l.raw = (TagKind.openSection.write name).toList) : IsTagName name := by
  have spelled : l.raw = ['\x7b', '\x7b', '#'] ++ name.toList ++ Delimiters.standard.closing := by
    rw [raw, TagKind.toList_write]
    rfl
  obtain ⟨whole, -⟩ := append_of_ahead read
  rw [spelled] at whole
  obtain rfl : '\x7b' :: '#' :: (name.toList ++ Delimiters.standard.closing ++ l.rest) = rest := by
    simpa using (List.cons.inj whole).2
  change upTo ['\x7b', '\x7b', '#'] Delimiters.standard.closing
    (name.toList ++ Delimiters.standard.closing ++ l.rest) (namedTag .standard .openSection) =
      .ok l at read
  unfold upTo at read
  split at read
  · cases read
  · next content after cut =>
      obtain ⟨⟨kind, delimiters⟩, interpreted, made⟩ := bind_eq_ok.mp read
      obtain rfl := Except.ok.inj made
      obtain rfl : content = name.toList := by simpa using spelled
      obtain ⟨found, trimmed, made⟩ := bind_eq_ok.mp interpreted
      obtain ⟨rfl, -⟩ := Prod.mk.inj (Except.ok.inj made)
      obtain rfl : found = name := by simpa using tag
      refine ⟨trimmed, ?_⟩
      have again := Text.cutAt?_append cut Delimiters.standard.closing_ne_nil []
      rwa [List.append_nil] at again

theorem tokens_unplaced (place other : Cursor → Position) (d : Delimiters)
    (cursor otherCursor : Cursor) (cs : List Char) :
    unplacedTokens (Lexeme.tokens place d cursor cs) =
      unplacedTokens (Lexeme.tokens other d otherCursor cs) := by
  induction size : cs.length using Nat.strongRecOn generalizing d cursor otherCursor cs with
  | ind n shorter =>
      cases cs with
      | nil =>
          rw [Lexeme.tokens, Lexeme.tokens]
          rfl
      | cons c rest =>
          cases read : ahead d c rest with
          | error fault =>
              rw [tokens_of_fault read, tokens_of_fault read]
              rfl
          | ok l =>
              have later := shorter l.rest.length (size ▸ length_rest_lt read) l.delimiters
                (cursor.advance l.raw) (otherCursor.advance l.raw) l.rest rfl
              rw [tokens_of_ahead read, tokens_of_ahead read]
              change unplacedTokens (Except.map ([_] ++ ·) _) =
                unplacedTokens (Except.map ([_] ++ ·) _)
              rw [unplacedTokens_append, unplacedTokens_append, later]
              rfl

theorem map_unplaced_placed (place : Cursor → Position) (cursor : Cursor) (tokens : List Token) :
    (Token.placed place cursor tokens).map Token.unplaced = tokens.map Token.unplaced := by
  induction tokens generalizing cursor with
  | nil => rfl
  | cons token tokens ih =>
      rw [Token.placed, List.map_cons, ih, List.map_cons]
      rfl

theorem ReadsFrom.tokens_unplaced (reads : ReadsFrom d body inside text)
    (place other : Cursor → Position) (cursor otherCursor : Cursor) :
    unplacedTokens (Lexeme.tokens place d cursor (chars body ++ text)) =
      (unplacedTokens (Lexeme.tokens other inside otherCursor text)).map
        (body.map Token.unplaced ++ ·) := by
  rw [reads.tokens_append place cursor, unplacedTokens_append, map_unplaced_placed,
    Lexeme.tokens_unplaced place other inside _ otherCursor]

end Lexeme

open Lexeme

/-- That some tokens come before the opening tag of a section, when this is written
behind a text. -/
def LeadsToSection (front name : String) (before : List Token) : Prop :=
  ∃ template opening ending,
    tokenize template (front ++ TagKind.openSection.write name) = .ok
      (before ++ [opening, ending]) ∧
      opening.kind = .tag .openSection name ∧ opening.raw = TagKind.openSection.write name

/-- That a text can stand between the tags of a section: it changes no delimiters, and a tag behind
it is read as one. -/
structure IsContent (text : String) (inner : List Token) : Prop where
  read : ∃ template ending, tokenize template text = .ok (inner ++ [ending])
  unchanged : ∀ token ∈ inner, ∀ opening closing, token.kind ≠ .delimiters opening closing
  apart : text.toList.getLast? ≠ some '\x7b'

variable {front name text : String} {before inner : List Token}

theorem LeadsToSection.readsFrom (leads : LeadsToSection front name before) :
    IsTagName name ∧ chars before = front.toList ∧ ∀ tail,
      ReadsFrom .standard before .standard ((TagKind.openSection.write name).toList ++ tail) := by
  obtain ⟨template, opening, ending, read, tag, raw⟩ := leads
  obtain ⟨body, inside, position, same, whole, reads⟩ := readsFrom_of_tokens read
  obtain ⟨rfl, -⟩ : before ++ [opening] = body ∧ ending = _ := by
    rw [List.append_cons before] at same
    obtain ⟨same, last⟩ := List.append_inj' same rfl
    exact ⟨same, List.singleton_inj.mp last⟩
  have spelled : chars [opening] = (TagKind.openSection.write name).toList := by
    rw [chars_cons, chars_nil, List.append_nil, raw]
  obtain ⟨middle, earlier, last⟩ := reads.of_append
  obtain _ | ⟨rawHere, ahead, kind, rawRead, -⟩ := last
  have raw := rawRead.trans (rawHere.symm.trans (congrArg String.toList raw))
  have written := (isRead_of_ahead (earlier.inForce Delimiters.isPlain_standard).2 ahead).written
  rw [kind, tag, raw] at written
  obtain rfl := eq_standard_of_isWritten written
  rw [TagKind.toList_write, rawRead] at raw
  obtain rfl := (List.cons.inj raw).1
  have named := isTagName_of_ahead ahead (kind.trans tag)
    (rawRead.trans (raw.trans (TagKind.toList_write ..).symm))
  refine ⟨named, ?_, fun tail => ?_⟩
  · rw [chars_append, spelled, String.toList_append] at whole
    exact List.append_cancel_right whole
  · rw [spelled, List.append_nil] at earlier
    exact earlier.extend (by simp [TagKind.toList_write, Delimiters.standard]) tail

theorem IsContent.readsAll (content : IsContent text inner) (named : IsTagName name)
    (rest : List Char) : chars inner = text.toList ∧
      ReadsAll (TagKind.openSection.token name :: (inner ++ [TagKind.close.token name])) rest := by
  obtain ⟨template, ending, read⟩ := content.read
  obtain ⟨_, _, position, same, -⟩ := readsFrom_of_tokens read
  obtain rfl := List.singleton_inj.mp (List.append_inj' same rfl).2
  have unchanged : ∀ token ∈ inner ++ [⟨.eof, position, ""⟩], ∀ opening closing,
      token.kind ≠ .delimiters opening closing :=
    List.forall_mem_append.mpr ⟨content.unchanged, by simp⟩
  obtain ⟨body, final, same, whole, reads⟩ := readsAll_of_tokenize read unchanged
  obtain rfl := (List.append_inj' same rfl).1
  have apart : (chars inner).getLast? ≠ some '\x7b' := whole ▸ content.apart
  have closing : ReadsAll [TagKind.close.token name] rest :=
    .cons (reads_tag (c := '/') rfl named _) .nil
  have spelled : chars [TagKind.close.token name] ++ rest =
      '\x7b' :: '\x7b' :: (TagKind.close.sigil.toList ++ name.toList ++
        Delimiters.standard.closing ++ rest) := by
    rw [chars_cons, chars_nil, List.append_nil, TagKind.token, TagKind.toList_write]
    rfl
  refine ⟨whole, .cons (reads_tag (c := '#') rfl named _) (.append (reads.agree ?_) closing)⟩
  rw [spelled]
  exact Agree.of_tag apart _

theorem tokenize_enclosed (leads : LeadsToSection front name before)
    (content : IsContent text inner)
    (template other behind : String) :
    unplacedTokens (tokenize template (front ++ TagKind.openSection.write name ++ text ++
        TagKind.close.write name ++ behind)) =
      (unplacedTokens (tokenize other behind)).map fun after =>
        before.map Token.unplaced ++ TagKind.openSection.token name ::
          (inner.map Token.unplaced ++ TagKind.close.token name :: after) := by
  obtain ⟨named, frontWhole, earlier⟩ := leads.readsFrom
  obtain ⟨whole, reads⟩ := content.readsAll named behind.toList
  generalize enclosed : TagKind.openSection.token name :: (inner ++ [TagKind.close.token name]) =
    tokens at reads
  have characters : chars tokens ++ behind.toList = (TagKind.openSection.write name).toList ++
      (text.toList ++ (TagKind.close.write name).toList ++ behind.toList) := by
    rw [← enclosed, chars_cons, chars_append, chars_cons, chars_nil, whole]
    simp [TagKind.token]
  have spelled : (front ++ TagKind.openSection.write name ++ text ++ TagKind.close.write name ++
      behind).toList = chars before ++ (chars tokens ++ behind.toList) := by
    rw [characters, frontWhole]
    simp
  have earlier := earlier (text.toList ++ (TagKind.close.write name).toList ++ behind.toList)
  rw [← characters] at earlier
  have alone : unplacedTokens (tokenize other behind) =
      unplacedTokens (Lexeme.tokens (fun _ => .unknown) .standard .start behind.toList) :=
    tokens_unplaced _ _ _ _ _ _
  rw [tokenize, spelled, earlier.tokens_unplaced _ (fun _ => .unknown) _ .start,
    reads.readsFrom.tokens_unplaced _ (fun _ => .unknown) _ .start, alone]
  cases unplacedTokens (Lexeme.tokens (fun _ => .unknown) .standard .start behind.toList) with
  | error error => rfl
  | ok after =>
      simp only [Except.map, ← enclosed, List.map_cons, List.map_append, List.cons_append,
        List.append_assoc, List.map_nil, List.nil_append]
      rfl

namespace LineClassifier

open Token

variable {front before inner tail more : List Token} {opening closing : Token}

theorem drain_undecided (inside : ∀ token ∈ front, token.endsLine = false) (filled : front ≠ [])
    (undecided : group? true (front ++ more) = none) :
    drain true (front ++ more) = front.map single ++ drain false more := by
  obtain ⟨first, rest, rfl⟩ := List.exists_cons_of_ne_nil filled
  obtain ⟨here, further⟩ := List.forall_mem_cons.mp inside
  rw [List.cons_append] at undecided ⊢
  rw [drain_single undecided, here, drain_inside further]
  rfl

theorem drain_pair {first second : Token} (standalone : second.isStandalone = true)
    (newline : first.isNewline = false) (blank : first.isWhitespace = false) (more : List Token) :
    drain true (first :: second :: more) =
      [.of .normal first, .of .normal second] :: drain false more :=
  drain_group (by simp [group?, lineRoles?, standalone, newline, blank, List.zipWith])

theorem tokens_ne_of_tags (line : StandaloneLine) (opens : opening.isStandalone = true)
    (closes : closing.isStandalone = true)
    (inside : ∀ token ∈ front ++ opening :: (inner ++ [closing]), token.endsLine = false) :
    line.tokens ++ more ≠ front ++ opening :: (inner ++ [closing]) ++ tail := by
  intro same
  have spelled : (front ++ opening :: (inner ++ [closing])) ++ tail =
      (line.before.toList ++ line.tag :: line.after.toList) ++ line.ending :: more := by
    rw [← same, StandaloneLine.tokens]
    simp
  obtain ⟨rest, lead, -⟩ | ⟨rest, within, -⟩ := append_eq_append_cons spelled
  · have whole :
        line.tokens = front ++ opening :: (inner ++ closing :: (rest ++ [line.ending])) := by
      rw [StandaloneLine.tokens, ← List.cons_append, ← List.append_assoc, lead]
      simp
    obtain ⟨-, -, behind⟩ := line.eq_of_tokens whole opens
    exact line.rest_ne closes behind.symm
  · have ends := inside line.ending (by rw [within]; simp)
    cases ends.symm.trans line.ending_endsLine

theorem drain_opening (first second : Token) :
    ∃ groups, (groups = [single first, single second] ∨
        groups = [[.of .normal first, .of .normal second]]) ∧
      ∀ rest more, (∀ token ∈ first :: second :: rest, token.endsLine = false) →
        (∀ (line : StandaloneLine) (further : List Token),
          line.tokens ++ further ≠ first :: second :: rest ++ more) →
        drain true (first :: second :: rest ++ more) =
          groups ++ (rest.map single ++ drain false more) := by
  by_cases together : second.isStandalone = true ∧ first.isNewline = false ∧
    first.isWhitespace = false
  · obtain ⟨standalone, newline, blank⟩ := together
    refine ⟨_, .inr rfl, fun rest more inside _ => ?_⟩
    rw [List.cons_append, List.cons_append, drain_pair standalone newline blank,
      drain_inside fun token member => inside token (by simp [member])]
    rfl
  · refine ⟨_, .inl rfl, fun rest more inside noLine => ?_⟩
    have undecided : group? true (first :: second :: rest ++ more) = none := by
      cases decided : group? true (first :: second :: rest ++ more) with
      | none => rfl
      | some found =>
          obtain ⟨one, tag, further, same, standalone, newline, blank, -⟩ |
            ⟨line, further, same, -⟩ := group?_cases decided
          · obtain ⟨rfl, rfl, -⟩ : first = one ∧ second = tag ∧ rest ++ more = further := by
              simpa using same
            exact absurd ⟨standalone, newline, blank⟩ together
          · exact absurd same.symm (noLine line further)
    rw [drain_undecided inside (by simp) undecided]
    rfl

theorem drain_enclosed (ends : EndsOnce (before ++ opening :: (inner ++ closing :: tail)))
    (opens : opening.isStandalone = true) (closes : closing.isStandalone = true)
    (within : ∀ token ∈ inner, token.endsLine = false) :
    let apart := drain true before ++
      ((opening :: (inner ++ [closing])).map single ++ drain false tail)
    drain true (before ++ opening :: (inner ++ closing :: tail)) = apart ∨
      ∃ groups first second later, (first = opening ∨ second = opening) ∧ first.isEof = false ∧
        second.isEof = false ∧
        drain true (before ++ opening :: (inner ++ closing :: tail)) =
          groups ++ [.of .normal first, .of .normal second] :: later ∧
        apart = groups ++ single first :: single second :: later := by
  intro apart
  obtain ⟨whole, here, -, -, -, rfl, -, inHere, -, -, newline, -⟩ :=
    ends.exists_line_around (endsLine_of_isStandalone opens)
  have inside : ∀ token ∈ here ++ opening :: (inner ++ [closing]), token.endsLine = false := by
    simp only [List.forall_mem_append, List.forall_mem_cons]
    exact ⟨inHere, endsLine_of_isStandalone opens, within, endsLine_of_isStandalone closes, by simp⟩
  have noLine (line : StandaloneLine) (further : List Token) :
      line.tokens ++ further ≠ here ++ opening :: (inner ++ [closing]) ++ tail :=
    tokens_ne_of_tags line opens closes inside
  have isEof {token : Token} (member : token ∈ here ++ opening :: (inner ++ [closing])) :
      token.isEof = false := (Bool.or_eq_false_iff.mp (inside token member)).2
  have front : drain true (whole ++ here) = drain true whole ++ drain true here :=
    drain_append newline (fun _ => rfl) here
  have spelled : whole ++ here ++ opening :: (inner ++ closing :: tail) =
      whole ++ (here ++ opening :: (inner ++ [closing]) ++ tail) := by simp
  rw [spelled, drain_append newline (fun _ => rfl)]
  -- The first two tokens of the line, which the opening tag is among, unless both precede it.
  obtain _ | ⟨one, _ | ⟨two, here⟩⟩ := here
  · obtain ⟨next, rest, filled⟩ := List.exists_cons_of_ne_nil
      (show inner ++ [closing] ≠ [] by simp)
    rw [List.nil_append, filled] at inside noLine isEof ⊢
    have alone : apart = drain true whole ++
        single opening :: single next :: (rest.map single ++ drain false tail) := by
      simp [apart, filled]
    obtain ⟨groups, rfl | rfl, drained⟩ := drain_opening opening next
    · exact .inl
        ((congrArg (drain true whole ++ ·) (drained _ tail inside noLine)).trans alone.symm)
    · exact .inr ⟨_, opening, next, _, .inl rfl, isEof (by simp), isEof (by simp),
        congrArg (drain true whole ++ ·) (drained _ tail inside noLine), alone⟩
  · have alone : apart = drain true whole ++
        single one :: single opening :: ((inner ++ [closing]).map single ++ drain false tail) := by
      simp [apart, front, drain]
    obtain ⟨groups, rfl | rfl, drained⟩ := drain_opening one opening
    · exact .inl
        ((congrArg (drain true whole ++ ·) (drained _ tail inside noLine)).trans alone.symm)
    · exact .inr ⟨_, one, opening, _, .inr rfl, isEof (by simp), isEof (by simp),
        congrArg (drain true whole ++ ·) (drained _ tail inside noLine), alone⟩
  · obtain ⟨groups, -, drained⟩ := drain_opening one two
    have alone : drain true (one :: two :: here) = groups ++ here.map single := by
      have noLineHere (line : StandaloneLine) (further : List Token) :
          line.tokens ++ further ≠ one :: two :: here ++ [] := by
        intro same
        have ends := inHere line.ending (by
          rw [← List.append_nil (one :: two :: here), ← same, StandaloneLine.tokens]
          simp)
        cases ends.symm.trans line.ending_endsLine
      have drainedHere := drained here [] inHere noLineHere
      rwa [List.append_nil, drain, List.append_nil] at drainedHere
    exact .inl ((congrArg (drain true whole ++ ·) (drained _ tail inside noLine)).trans
      (by simp [apart, front, alone]))

end LineClassifier

end Stencil
