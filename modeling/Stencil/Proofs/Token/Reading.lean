import Mathlib.Data.List.Basic
import Stencil.Proofs.Results
import Stencil.Token.Reader

/-!
Tokens and the text that they are read from. Main statement: tokens that were read from a text are
read again from it wherever it stands, as long as what follows makes none of them end elsewhere.
-/

namespace Stencil

namespace Text

theorem after?_append (mark rest : List Char) : after? mark (mark ++ rest) = some rest := by
  induction mark with
  | nil => rfl
  | cons m mark ih => simp [after?, ih]

theorem after?_front {mark cs : List Char} (tail : List Char)
    (missing : after? mark (cs ++ tail) = none) : after? mark cs = none := by
  cases sooner : after? mark cs with
  | none => rfl
  | some rest =>
      rw [← append_of_after? sooner, List.append_assoc, after?_append] at missing
      cases missing

theorem after?_of_append {mark found rest : List Char} (long : mark.length ≤ found.length)
    (more : List Char) (missing : after? mark (found ++ rest) = none) :
    after? mark (found ++ more) = none := by
  induction mark generalizing found with
  | nil => simp [after?] at missing
  | cons m mark ih =>
      cases found with
      | nil => simp at long
      | cons c found =>
          simp only [List.cons_append, after?] at missing ⊢
          split
          · next same =>
              rw [if_pos same] at missing
              exact ih (by simpa using long) missing
          · rfl

theorem cutAt?_append {mark cs before after : List Char}
    (cut : cutAt? mark cs = some (before, after)) (nonempty : mark ≠ []) (more : List Char) :
    cutAt? mark (before ++ mark ++ more) = some (before, more) := by
  induction cs generalizing before with
  | nil => simp [cutAt?] at cut
  | cons c rest ih =>
      simp only [cutAt?] at cut
      split at cut
      · obtain ⟨rfl, -⟩ := Prod.mk.inj (Option.some.inj cut)
        obtain ⟨m, mark, rfl⟩ := List.exists_cons_of_ne_nil nonempty
        have found := after?_append (m :: mark) more
        simp only [List.nil_append, List.cons_append] at found ⊢
        simp only [cutAt?, found]
      · next missing =>
          simp only [Option.map_eq_some_iff, Prod.exists, Prod.mk.injEq] at cut
          obtain ⟨left, right, tail, rfl, rfl⟩ := cut
          have whole := append_of_cutAt? tail
          have long : mark.length ≤ (c :: (left ++ mark)).length := by simp; omega
          rw [← whole] at missing
          have still := after?_of_append long more missing
          simp only [List.cons_append] at still ⊢
          simp only [cutAt?, still, ih tail, Option.map_some]

end Text

def Token.unplaced (token : Token) : Token := { token with position := .unknown }

namespace Lexeme

def startsBlank (cs : List Char) : Bool := cs.head?.any isInlineSpace

structure Agree (read rest other : List Char) : Prop where
  ends : ∀ last, last <:+ read →
    endsText Delimiters.standard.opening (last ++ rest) =
      endsText Delimiters.standard.opening (last ++ other)
  blank : startsBlank rest = startsBlank other

variable {read more rest other run : List Char} {c : Char} {l : Lexeme} {d : Delimiters}

theorem endsText_take (cs : List Char) :
    endsText Delimiters.standard.opening cs =
      endsText Delimiters.standard.opening (cs.take 2) := by
  obtain _ | ⟨first, _ | ⟨second, rest⟩⟩ := cs
  · rfl
  · rfl
  · simp [endsText, Delimiters.standard, List.isPrefixOf]

namespace Agree

theorem prepend (agree : Agree (read ++ more) rest other) :
    Agree read (more ++ rest) (more ++ other) := by
  refine ⟨?_, ?_⟩
  · intro last suffix
    rw [← List.append_assoc, ← List.append_assoc]
    apply agree.ends
    obtain ⟨before, rfl⟩ := suffix
    exact ⟨before, by simp⟩
  · cases more with
    | nil => exact agree.blank
    | cons c more => rfl

theorem suffix (agree : Agree (read ++ more) rest other) : Agree more rest other :=
  ⟨fun last below => agree.ends last (below.trans (List.suffix_append read more)), agree.blank⟩

theorem take_append_left (same : rest.take 2 = other.take 2) (front : List Char) :
    (front ++ rest).take 2 = (front ++ other).take 2 := by
  have fewer := congrArg (List.take (2 - front.length)) same
  rw [List.take_take, List.take_take, Nat.min_eq_left (by omega)] at fewer
  rw [List.take_append, List.take_append, fewer]

theorem of_take (same : rest.take 2 = other.take 2) (read : List Char) :
    Agree read rest other := by
  refine ⟨?_, ?_⟩
  · intro last _
    rw [endsText_take, endsText_take (last ++ other), take_append_left same]
  · obtain _ | ⟨first, rest⟩ := rest <;> obtain _ | ⟨second, other⟩ := other
    · rfl
    · simp at same
    · simp at same
    · simp only [List.take_succ_cons, List.cons.injEq] at same
      rw [startsBlank, startsBlank, List.head?_cons, List.head?_cons, same.1]

theorem of_tag (open_ended : read.getLast? ≠ some '\x7b') (other : List Char) :
    Agree read [] ('\x7b' :: '\x7b' :: other) := by
  refine ⟨?_, rfl⟩
  intro last suffix
  obtain _ | ⟨first, _ | ⟨second, last⟩⟩ := last
  · rfl
  · obtain ⟨before, rfl⟩ := suffix
    have other : first ≠ '\x7b' := by simpa using open_ended
    simp [endsText, Delimiters.standard, List.isPrefixOf, other.symm]
  · rw [endsText_take, endsText_take (first :: second :: last ++ _)]
    rfl

end Agree

theorem textRun_apart {opening : List Char} (run : textRun opening (more ++ rest) = (more, rest))
    (goes : ∀ last, last <:+ more → last ≠ [] → endsText opening (last ++ rest) = false →
      endsText opening (last ++ other) = false)
    (ends : endsText opening rest = true → endsText opening other = true) :
    textRun opening (more ++ other) = (more, other) := by
  induction more with
  | nil =>
      have stops : endsText opening rest = true := by
        cases rest with
        | nil => rfl
        | cons c rest =>
            by_contra inside
            rw [Bool.not_eq_true] at inside
            simp [textRun, inside] at run
      have still := ends stops
      cases other with
      | nil => rfl
      | cons c other =>
          rw [List.nil_append, textRun, if_pos still]
  | cons c more ih =>
      simp only [List.cons_append, textRun] at run ⊢
      split at run
      · simp at run
      · next inside =>
          have here : endsText opening (c :: (more ++ rest)) = false := eq_false_of_ne_true inside
          have still := goes (c :: more) (List.suffix_refl _) (List.cons_ne_nil _ _) here
          rw [List.cons_append] at still
          rw [if_neg (by simp [still])]
          obtain ⟨same, after⟩ := Prod.mk.inj run
          have inner : textRun opening (more ++ rest) = (more, rest) :=
            Prod.ext (List.cons.inj same).2 after
          have tail := ih inner fun last suffix =>
            goes last (suffix.trans (List.suffix_cons c more))
          rw [tail]

theorem after?_of_goes (goes : endsText Delimiters.standard.opening (c :: rest) = false) :
    Text.after? Delimiters.standard.opening (c :: rest) = none := by
  by_cases bracket : c = '\x7b'
  · subst bracket
    cases rest with
    | nil => rfl
    | cons second rest =>
        have single : second ≠ '\x7b' := by
          rintro rfl
          simp [endsText, Delimiters.standard, List.isPrefixOf] at goes
        simp [Text.after?, Delimiters.standard, single.symm]
  · simp [Text.after?, Delimiters.standard, Ne.symm bracket]

theorem plain_of_goes (goes : endsText d.opening (c :: rest) = false) :
    plain d c rest =
      ⟨.text (String.ofList (c :: (textRun d.opening rest).1)), c :: (textRun d.opening rest).1,
        (textRun d.opening rest).2, d⟩ := by
  unfold plain
  grind [endsText, isInlineSpace]

theorem takeWhile_agree (spaces : more = (more ++ rest).takeWhile isInlineSpace)
    (blank : startsBlank rest = startsBlank other) :
    (more ++ other).takeWhile isInlineSpace = more ∧
      (more ++ other).dropWhile isInlineSpace = other := by
  induction more with
  | nil =>
      have outside : startsBlank other = false := by
        rw [← blank]
        cases rest with
        | nil => rfl
        | cons c rest =>
            by_contra inside
            rw [Bool.not_eq_false] at inside
            have first : isInlineSpace c = true := by simpa [startsBlank] using inside
            simp [first] at spaces
      cases other with
      | nil => exact ⟨rfl, rfl⟩
      | cons c other =>
          have first : isInlineSpace c = false := by simpa [startsBlank] using outside
          simp [first]
  | cons c more ih =>
      rw [List.cons_append, List.takeWhile_cons] at spaces
      split at spaces
      · next first =>
          obtain ⟨taken, left⟩ := ih (List.cons.inj spaces).2
          simp [first, taken, left]
      · cases spaces

theorem endsText_cases {opening : List Char} (ends : endsText opening (c :: rest) = true)
    (closed : Text.after? opening (c :: rest) = none) :
    isInlineSpace c = true ∨ c = '\n' ∨ c = '"' ∨ c = '\\' ∨
      ∃ more, c = '\r' ∧ rest = '\n' :: more := by
  simp only [endsText] at ends
  split at ends
  · next special =>
      rcases special with rfl | rfl | rfl | rfl | rfl <;> simp [isInlineSpace]
  · split at ends
    · next carriage =>
        obtain _ | ⟨second, more⟩ := rest
        · simp at ends
        · have feed : second = '\n' := by simpa using ends
          exact .inr (.inr (.inr (.inr ⟨more, carriage, by rw [feed]⟩)))
    · have opens := List.isPrefixOf_iff_prefix.mp ends
      obtain ⟨after, whole⟩ := opens
      rw [← whole, Text.after?_append] at closed
      cases closed

theorem plain_of_inline (inline : isInlineSpace c = true) :
    plain d c rest =
      ⟨.whitespace (String.ofList (c :: rest.takeWhile isInlineSpace)),
        c :: rest.takeWhile isInlineSpace, rest.dropWhile isInlineSpace, d⟩ := by
  simp only [isInlineSpace, Bool.or_eq_true, decide_eq_true_eq] at inline
  obtain rfl | rfl := inline <;> rfl

theorem plain_apart (whole : (plain d c (more ++ rest)).raw = c :: more)
    (closed : Text.after? d.opening (c :: (more ++ rest)) = none)
    (goes : ∀ last, last <:+ c :: more → last ≠ [] → endsText d.opening (last ++ rest) = false →
      endsText d.opening (last ++ other) = false)
    (ends : endsText d.opening rest = true → endsText d.opening other = true)
    (blank : startsBlank rest = startsBlank other) :
    plain d c (more ++ other) = { plain d c (more ++ rest) with rest := other } := by
  cases stops : endsText d.opening (c :: (more ++ rest)) with
  | false =>
      have still : endsText d.opening (c :: (more ++ other)) = false :=
        goes (c :: more) (List.suffix_refl _) (List.cons_ne_nil _ _) stops
      rw [plain_of_goes stops] at whole
      have taken : (textRun d.opening (more ++ rest)).1 = more := (List.cons.inj whole).2
      have both := textRun_append d.opening (more ++ rest)
      rw [taken] at both
      have run : textRun d.opening (more ++ rest) = (more, rest) :=
        Prod.ext taken (List.append_cancel_left both)
      have again : textRun d.opening (more ++ other) = (more, other) :=
        textRun_apart run (fun last suffix => goes last (suffix.trans (List.suffix_cons c more)))
          ends
      rw [plain_of_goes stops, plain_of_goes still, run, again]
  | true =>
      obtain inline | rfl | rfl | rfl | ⟨further, rfl, following⟩ := endsText_cases stops closed
      · rw [plain_of_inline inline] at whole ⊢
        have spaces : (more ++ rest).takeWhile isInlineSpace = more := (List.cons.inj whole).2
        obtain ⟨taken, dropped⟩ := takeWhile_agree spaces.symm blank
        rw [plain_of_inline inline, taken, dropped, spaces]
      · obtain rfl : [] = more := (List.cons.inj whole).2
        rfl
      · obtain rfl : [] = more := (List.cons.inj whole).2
        rfl
      · obtain rfl : [] = more := (List.cons.inj whole).2
        rfl
      · rw [following] at whole ⊢
        obtain rfl : ['\n'] = more := (List.cons.inj whole).2
        rfl

theorem ahead_agree (closed : Text.after? Delimiters.standard.opening (c :: (more ++ rest)) = none)
    (read : ahead .standard c (more ++ rest) = .ok l) (whole : l.raw = c :: more)
    (agree : Agree (c :: more) rest other) :
    ahead .standard c (more ++ other) = .ok { l with rest := other } := by
  have same := agree.ends (c :: more) (List.suffix_refl _)
  have still : Text.after? Delimiters.standard.opening (c :: (more ++ other)) = none := by
    cases stops : endsText Delimiters.standard.opening (c :: (more ++ rest)) with
    | false => exact after?_of_goes (same.symm.trans stops)
    | true =>
        have bracket : c ≠ '\x7b' := by
          rintro rfl
          obtain inline | letter | letter | letter | ⟨further, letter, -⟩ :=
            endsText_cases stops closed
          · cases inline
          all_goals cases letter
        simp [Text.after?, Delimiters.standard, bracket.symm]
  simp only [ahead, closed, Except.ok.injEq] at read
  subst read
  have again := plain_apart whole closed
    (fun last suffix _ goes => (agree.ends last suffix).symm.trans goes)
    (fun ends => (agree.ends [] (List.nil_suffix)).symm.trans ends) agree.blank
  rw [ahead, still]
  exact congrArg Except.ok again

theorem upTo_local {lead terminator cs : List Char}
    {interpret : List Char → Except TagFault (TokenKind × Delimiters)}
    (read : upTo lead terminator cs interpret = .ok l) (nonempty : terminator ≠ []) :
    ∃ inner, inner ≠ [] ∧ l.raw = lead ++ inner ∧ cs = inner ++ l.rest ∧
      ∀ other, upTo lead terminator (inner ++ other) interpret =
        .ok { l with rest := other } := by
  unfold upTo at read
  cases cut : Text.cutAt? terminator cs with
  | none => simp [cut] at read
  | some parts =>
      obtain ⟨content, after⟩ := parts
      simp only [cut] at read
      obtain ⟨⟨kind, delimiters⟩, interpreted, made⟩ := bind_eq_ok.mp read
      cases made
      refine ⟨content ++ terminator, by simp [nonempty], by simp,
        (Text.append_of_cutAt? cut).symm, ?_⟩
      intro other
      simp only [upTo, Text.cutAt?_append cut nonempty other, interpreted, ok_bind, pure_eq_ok]

theorem ofTag_cases (d : Delimiters) (c : Char) :
    (∃ terminator interpret, terminator ≠ [] ∧ ∀ other,
      ofTag d (c :: other) = upTo (d.opening ++ [c]) terminator other interpret) ∨
    ∀ other, ofTag d (c :: other) =
      upTo d.opening d.closing (c :: other) (namedTag d .escaped) := by
  by_cases triple : d = .standard ∧ c = '\x7b'
  · exact .inl ⟨_, _, List.cons_ne_nil _ _, fun other => by rw [ofTag]; exact if_pos triple⟩
  by_cases comment : c = '!'
  · refine .inl ⟨d.closing, commentTag d, d.closing_ne_nil, fun other => ?_⟩
    rw [ofTag]
    exact (if_neg triple).trans (if_pos comment)
  by_cases change : c = '='
  · refine .inl ⟨'=' :: d.closing, delimiterTag, List.cons_ne_nil _ _, fun other => ?_⟩
    rw [ofTag]
    exact ((if_neg triple).trans (if_neg comment)).trans (if_pos change)
  cases sigil : sigilKind? c with
  | some kind =>
      refine .inl ⟨_, namedTag d kind, d.closing_ne_nil, fun other => ?_⟩
      simp only [ofTag, triple, comment, change, sigil, if_false]
  | none =>
      refine .inr fun other => ?_
      simp only [ofTag, triple, comment, change, sigil, if_false]

theorem ofTag_local {cs : List Char} (read : ofTag d cs = .ok l) :
    ∃ inner, inner ≠ [] ∧ l.raw = d.opening ++ inner ∧ cs = inner ++ l.rest ∧
      ∀ other, ofTag d (inner ++ other) = .ok { l with rest := other } := by
  cases cs with
  | nil =>
      rw [ofTag] at read
      obtain ⟨inner, nonempty, -, whole, -⟩ := upTo_local read d.closing_ne_nil
      exact absurd (List.append_eq_nil_iff.mp whole.symm).1 nonempty
  | cons c rest =>
      obtain ⟨terminator, interpret, closing, here⟩ | here := ofTag_cases d c
      · obtain ⟨inner, -, raw, whole, again⟩ := upTo_local ((here rest).symm.trans read) closing
        refine ⟨c :: inner, by simp, by simp [raw], by simp [whole], ?_⟩
        intro other
        exact (here (inner ++ other)).trans (again other)
      · obtain ⟨inner, nonempty, raw, whole, again⟩ :=
          upTo_local ((here rest).symm.trans read) d.closing_ne_nil
        refine ⟨inner, nonempty, raw, whole, ?_⟩
        intro other
        obtain ⟨first, inner, rfl⟩ := List.exists_cons_of_ne_nil nonempty
        obtain ⟨rfl, -⟩ := List.cons.inj whole
        exact (here (inner ++ other)).trans (again other)

theorem kind_plain_ne_tag (d : Delimiters) (c : Char) (rest : List Char) (kind : TagKind)
    (name : String) : (plain d c rest).kind ≠ .tag kind name := by
  simp only [plain]
  repeat' split
  all_goals simp

def Reads (token : Token) (rest : List Char) : Prop :=
  ∃ c more, token.raw.toList = c :: more ∧
    ahead .standard c (more ++ rest) = .ok ⟨token.kind, c :: more, rest, .standard⟩

namespace Reads

variable {token : Token}

theorem of_opening {after : List Char} (reads : Reads token rest)
    (opening : Text.after? Delimiters.standard.opening (token.raw.toList ++ rest) = some after) :
    ∃ inner, token.raw.toList = '\x7b' :: '\x7b' :: inner ∧ ∀ other, Reads token other := by
  obtain ⟨c, more, raw, read⟩ := reads
  rw [raw, List.cons_append] at opening
  simp only [ahead, opening] at read
  obtain ⟨inner, -, whole, -, again⟩ := ofTag_local read
  have spelled : c :: more = Delimiters.standard.opening ++ inner := whole
  refine ⟨inner, raw.trans spelled, ?_⟩
  intro other
  refine ⟨c, more, raw, ?_⟩
  have still : c :: (more ++ other) = Delimiters.standard.opening ++ (inner ++ other) := by
    rw [← List.cons_append, spelled, List.append_assoc]
  rw [ahead, still, Text.after?_append]
  exact again other

theorem of_tag {kind : TagKind} {name : String} (reads : Reads token rest)
    (tag : token.kind = .tag kind name) :
    ∃ inner, token.raw.toList = '\x7b' :: '\x7b' :: inner ∧ ∀ other, Reads token other := by
  cases opening : Text.after? Delimiters.standard.opening (token.raw.toList ++ rest) with
  | some after => exact reads.of_opening opening
  | none =>
      obtain ⟨c, more, raw, read⟩ := reads
      rw [raw, List.cons_append] at opening
      simp only [ahead, opening, Except.ok.injEq] at read
      have plain := congrArg Lexeme.kind read
      rw [tag] at plain
      exact absurd plain (kind_plain_ne_tag _ _ _ _ _)

theorem agree (reads : Reads token rest) (agree : Agree token.raw.toList rest other) :
    Reads token other := by
  cases opening : Text.after? Delimiters.standard.opening (token.raw.toList ++ rest) with
  | some after => exact (reads.of_opening opening).choose_spec.2 other
  | none =>
      obtain ⟨c, more, raw, read⟩ := reads
      rw [raw] at opening agree
      exact ⟨c, more, raw, ahead_agree opening read rfl agree⟩

end Reads

theorem delimiters_of_upTo {lead terminator cs : List Char}
    {interpret : List Char → Except TagFault (TokenKind × Delimiters)}
    (read : upTo lead terminator cs interpret = .ok l) :
    ∃ content, interpret content = .ok (l.kind, l.delimiters) := by
  unfold upTo at read
  split at read
  · cases read
  · next content after cut =>
      obtain ⟨⟨kind, delimiters⟩, interpreted, made⟩ := bind_eq_ok.mp read
      cases made
      exact ⟨content, interpreted⟩

theorem delimiters_of_namedTag {kind : TagKind} {content : List Char} {found : TokenKind}
    {after : Delimiters} (named : namedTag d kind content = .ok (found, after)) : after = d := by
  obtain ⟨name, -, made⟩ := bind_eq_ok.mp named
  cases made
  rfl

theorem delimiters_of_ahead (read : ahead d c rest = .ok l)
    (unchanged : ∀ opening closing, l.kind ≠ .delimiters opening closing) :
    l.delimiters = d := by
  unfold ahead at read
  split at read
  · unfold ofTag at read
    dsimp only at read
    repeat' split at read
    all_goals obtain ⟨content, interpreted⟩ := delimiters_of_upTo read
    all_goals try exact delimiters_of_namedTag interpreted
    · exact (congrArg Prod.snd (Except.ok.inj interpreted)).symm
    · obtain ⟨changed, -, made⟩ := bind_eq_ok.mp interpreted
      have kind := congrArg Prod.fst (Except.ok.inj made)
      exact absurd kind.symm (unchanged _ _)
  · cases read
    unfold plain
    dsimp only
    repeat' split
    all_goals rfl

def chars (tokens : List Token) : List Char := tokens.flatMap fun token => token.raw.toList

/-- That tokens can be read one after another from their characters with others behind them. -/
inductive ReadsAll : List Token → List Char → Prop where
  | nil {rest : List Char} : ReadsAll [] rest
  | cons {token : Token} {tokens : List Token} {rest : List Char} :
      Reads token (chars tokens ++ rest) → ReadsAll tokens rest → ReadsAll (token :: tokens) rest

theorem chars_nil : chars [] = [] := rfl

theorem chars_cons (token : Token) (tokens : List Token) :
    chars (token :: tokens) = token.raw.toList ++ chars tokens := rfl

theorem chars_append (front more : List Token) :
    chars (front ++ more) = chars front ++ chars more := List.flatMap_append

theorem chars_unplaced (tokens : List Token) :
    chars (tokens.map Token.unplaced) = chars tokens := by
  rw [chars, List.flatMap_map]
  rfl

namespace ReadsAll

variable {tokens front more : List Token} {rest other : List Char}

theorem append (first : ReadsAll front (chars more ++ rest)) (second : ReadsAll more rest) :
    ReadsAll (front ++ more) rest := by
  induction front with
  | nil => exact second
  | cons token front ih =>
      obtain _ | ⟨here, further⟩ := first
      have joined : chars (front ++ more) ++ rest = chars front ++ (chars more ++ rest) := by
        rw [chars_append, List.append_assoc]
      exact .cons (joined ▸ here) (ih further)

theorem of_append (reads : ReadsAll (front ++ more) rest) :
    ReadsAll front (chars more ++ rest) ∧ ReadsAll more rest := by
  induction front with
  | nil => exact ⟨.nil, reads⟩
  | cons token front ih =>
      obtain _ | ⟨here, further⟩ := reads
      have joined : chars (front ++ more) ++ rest = chars front ++ (chars more ++ rest) := by
        rw [chars_append, List.append_assoc]
      exact ⟨.cons (joined ▸ here) (ih further).1, (ih further).2⟩

theorem agree (reads : ReadsAll tokens rest) (agree : Agree (chars tokens) rest other) :
    ReadsAll tokens other := by
  induction reads with
  | nil => exact .nil
  | cons here _ ih => exact .cons (here.agree agree.prepend) (ih agree.suffix)

theorem of_unplaced {others : List Token} (reads : ReadsAll tokens rest)
    (same : tokens.map Token.unplaced = others.map Token.unplaced) : ReadsAll others rest := by
  induction reads generalizing others with
  | nil =>
      rw [List.map_nil, eq_comm, List.map_eq_nil_iff] at same
      subst same
      exact .nil
  | @cons token tokens rest here _ ih =>
      rw [List.map_cons, eq_comm, List.map_eq_cons_iff] at same
      obtain ⟨other, others, rfl, alike, following⟩ := same
      obtain ⟨kind, -, raw⟩ := Token.mk.inj alike
      have behind : chars others = chars tokens := by
        rw [← chars_unplaced others, following, chars_unplaced]
      refine .cons ?_ (ih following.symm)
      rw [behind, Reads, raw, kind]
      exact here

end ReadsAll

theorem readsAll_of_tokens {place : Cursor → Position} {cursor : Cursor} {cs : List Char}
    {tokens : List Token} (read : Lexeme.tokens place d cursor cs = .ok tokens)
    (standard : d = .standard)
    (unchanged : ∀ token ∈ tokens, ∀ opening closing, token.kind ≠ .delimiters opening closing) :
    ∃ body position, tokens = body ++ [⟨.eof, position, ""⟩] ∧ chars body = cs ∧
      ReadsAll body [] := by
  fun_induction Lexeme.tokens place d cursor cs generalizing tokens with
  | case1 d cursor =>
      cases read
      exact ⟨[], place cursor, rfl, rfl, .nil⟩
  | case2 => cases read
  | case3 => cases read
  | case4 d cursor c rest l ahead more later ih =>
      cases read
      subst standard
      obtain ⟨here, further⟩ := List.forall_mem_cons.mp unchanged
      have kept := delimiters_of_ahead ahead here
      obtain ⟨body, position, rfl, whole, reads⟩ := ih later kept further
      obtain ⟨spelled, nonempty⟩ := append_of_ahead ahead
      obtain ⟨first, run, raw⟩ := List.exists_cons_of_ne_nil nonempty
      rw [raw, List.cons_append, List.cons.injEq] at spelled
      obtain ⟨rfl, same⟩ := spelled
      refine ⟨⟨l.kind, place cursor, String.ofList l.raw⟩ :: body, position, rfl, ?_, ?_⟩
      · rw [chars_cons, whole, String.toList_ofList, raw, List.cons_append, same]
      · refine .cons ⟨first, run, by rw [String.toList_ofList, raw], ?_⟩ reads
        rw [whole, List.append_nil, same, ahead, ← raw, ← kept]

theorem tokens_of_ahead {place : Cursor → Position} {cursor : Cursor}
    (read : ahead d c rest = .ok l) :
    Lexeme.tokens place d cursor (c :: rest) =
      (Lexeme.tokens place l.delimiters (cursor.advance l.raw) l.rest).map
        (⟨l.kind, place cursor, String.ofList l.raw⟩ :: ·) := by
  rw [Lexeme.tokens]
  split
  · next failed => cases read.symm.trans failed
  · next found =>
      cases read.symm.trans found
      cases Lexeme.tokens place l.delimiters (cursor.advance l.raw) l.rest <;> rfl

theorem tokens_cons {place : Cursor → Position} {cursor : Cursor} {tokens : List Token}
    (read : ahead d c rest = .ok l)
    (further : Lexeme.tokens place l.delimiters (cursor.advance l.raw) l.rest = .ok tokens) :
    Lexeme.tokens place d cursor (c :: rest) =
      .ok (⟨l.kind, place cursor, String.ofList l.raw⟩ :: tokens) := by
  rw [tokens_of_ahead read, further]
  rfl

theorem tokens_append {place : Cursor → Position} {cursor : Cursor} {tokens body : List Token}
    (reads : ReadsAll body rest)
    (further : Lexeme.tokens place .standard (cursor.advance (chars body)) rest = .ok tokens) :
    ∃ front, Lexeme.tokens place .standard cursor (chars body ++ rest) = .ok (front ++ tokens) ∧
      front.map Token.unplaced = body.map Token.unplaced := by
  induction body generalizing cursor with
  | nil => exact ⟨[], further, rfl⟩
  | cons token body ih =>
      obtain _ | ⟨⟨c, more, raw, read⟩, others⟩ := reads
      rw [chars_cons, raw, Cursor.advance, List.foldl_append] at further
      obtain ⟨front, tokenized, same⟩ := ih others further
      refine ⟨⟨token.kind, place cursor, String.ofList (c :: more)⟩ :: front, ?_, ?_⟩
      · rw [chars_cons, raw, List.append_assoc]
        exact tokens_cons read tokenized
      · rw [List.map_cons, List.map_cons, same, ← raw, String.ofList_toList]
        rfl

theorem tokens_of_readsAll {body : List Token} {cs : List Char} (reads : ReadsAll body [])
    (whole : chars body = cs) (place : Cursor → Position) (cursor : Cursor) :
    ∃ tokens, Lexeme.tokens place .standard cursor cs = .ok tokens ∧
      tokens.map Token.unplaced = body.map Token.unplaced ++ [⟨.eof, .unknown, ""⟩] := by
  have ended : Lexeme.tokens place .standard (cursor.advance (chars body)) [] =
      .ok [⟨.eof, place (cursor.advance (chars body)), ""⟩] := by rw [Lexeme.tokens]
  obtain ⟨front, tokenized, same⟩ := tokens_append reads ended
  rw [List.append_nil, whole] at tokenized
  exact ⟨_, tokenized, by rw [List.map_append, same]; rfl⟩

end Lexeme

open Lexeme

theorem tokenize_of_readsAll {body : List Token} {source : String} (reads : ReadsAll body [])
    (whole : chars body = source.toList) (template : String) :
    ∃ tokens, tokenize template source = .ok tokens ∧
      tokens.map Token.unplaced = body.map Token.unplaced ++ [⟨.eof, .unknown, ""⟩] :=
  tokens_of_readsAll reads whole _ _

theorem readsAll_of_tokenize {template source : String} {tokens : List Token}
    (read : tokenize template source = .ok tokens)
    (unchanged : ∀ token ∈ tokens, ∀ opening closing, token.kind ≠ .delimiters opening closing) :
    ∃ body position, tokens = body ++ [⟨.eof, position, ""⟩] ∧ chars body = source.toList ∧
      ReadsAll body [] :=
  readsAll_of_tokens read rfl unchanged

def TokenKind.IsInline (kind : TokenKind) : Prop :=
  ∀ content, kind = .text content ∨ kind = .whitespace content → '\n' ∉ content.toList

namespace Lexeme

variable {c : Char} {rest : List Char} {d : Delimiters} {l : Lexeme}

theorem newline_notMem_textRun (opening cs : List Char) : '\n' ∉ (textRun opening cs).1 := by
  induction cs with
  | nil => simp [textRun]
  | cons c rest ih =>
      unfold textRun
      split
      · simp
      · next goes =>
          have ordinary : c ≠ '\n' := by
            rintro rfl
            simp [endsText] at goes
          simpa [ordinary.symm] using ih

theorem isInline_plain (d : Delimiters) (c : Char) (rest : List Char) :
    (plain d c rest).kind.IsInline := by
  intro content found
  by_cases newline : c = '\n'
  · simp [plain, newline] at found
  · rw [plain, if_neg newline] at found
    repeat' split at found
    all_goals simp only [TokenKind.text.injEq, TokenKind.whitespace.injEq, reduceCtorEq, or_false,
      false_or] at found
    · subst found
      rw [String.toList_ofList, List.mem_cons, not_or]
      refine ⟨Ne.symm newline, ?_⟩
      intro member
      cases List.all_eq_true.mp List.all_takeWhile _ member
    · next run after ran =>
        subst found
        have clean := newline_notMem_textRun d.opening rest
        rw [ran] at clean
        rw [String.toList_ofList, List.mem_cons, not_or]
        exact ⟨Ne.symm newline, clean⟩

theorem isInline_namedTag {kind : TagKind} {content : List Char} {found : TokenKind × Delimiters}
    (named : namedTag d kind content = .ok found) : found.1.IsInline := by
  obtain ⟨name, -, made⟩ := bind_eq_ok.mp named
  cases made
  rintro content (tag | tag) <;> cases tag

theorem isInline_ahead (read : ahead d c rest = .ok l) : l.kind.IsInline := by
  unfold ahead at read
  split at read
  · unfold ofTag at read
    dsimp only at read
    repeat' split at read
    all_goals obtain ⟨content, interpreted⟩ := delimiters_of_upTo read
    all_goals try exact isInline_namedTag interpreted
    · have kind := congrArg Prod.fst (Except.ok.inj interpreted)
      rintro content (tag | tag) <;> cases kind.trans tag
    · obtain ⟨changed, -, made⟩ := bind_eq_ok.mp interpreted
      have kind := congrArg Prod.fst (Except.ok.inj made)
      rintro content (tag | tag) <;> cases kind.trans tag
  · cases read
    exact isInline_plain d c rest

theorem isInline_tokens {place : Cursor → Position} {cursor : Cursor} {cs : List Char}
    {tokens : List Token} (read : Lexeme.tokens place d cursor cs = .ok tokens) :
    ∀ token ∈ tokens, token.kind.IsInline := by
  fun_induction Lexeme.tokens place d cursor cs generalizing tokens with
  | case1 d cursor =>
      cases read
      rw [List.forall_mem_singleton]
      rintro content (ending | ending) <;> cases ending
  | case2 => cases read
  | case3 => cases read
  | case4 d cursor c rest l ahead more later ih =>
      cases read
      exact List.forall_mem_cons.mpr ⟨isInline_ahead ahead, ih later⟩

end Lexeme

theorem isInline_of_tokenize {template source : String} {tokens : List Token}
    (read : tokenize template source = .ok tokens) : ∀ token ∈ tokens, token.kind.IsInline :=
  isInline_tokens read

def TagKind.write (kind : TagKind) (name : String) : String :=
  "\x7b\x7b" ++ kind.sigil ++ name ++ "\x7d\x7d"

theorem TagKind.toList_write (kind : TagKind) (name : String) :
    (kind.write name).toList =
      '\x7b' :: '\x7b' :: (kind.sigil.toList ++ name.toList ++ Delimiters.standard.closing) := by
  simp [write, Delimiters.standard]

def TagKind.token (kind : TagKind) (name : String) : Token :=
  ⟨.tag kind name, .unknown, kind.write name⟩

/-- That a tag can have a name: it is no longer without the blanks around it, and the tag does not
end within it. -/
structure IsTagName (name : String) : Prop where
  trimmed : nameIn name.toList = .ok name
  uncut : Text.cutAt? Delimiters.standard.closing (name.toList ++ Delimiters.standard.closing) =
    some (name.toList, [])

theorem Lexeme.reads_tag {kind : TagKind} {c : Char} {name : String}
    (sigil : sigilKind? c = some kind) (named : IsTagName name) (rest : List Char) :
    Reads (kind.token name) rest := by
  have spelled : (kind.write name).toList =
      '\x7b' :: '\x7b' :: c :: (name.toList ++ Delimiters.standard.closing) := by
    rw [TagKind.write, sigil_of_sigilKind? sigil]
    simp [Delimiters.standard]
  refine ⟨_, _, spelled, ?_⟩
  have special : c ≠ '\x7b' ∧ c ≠ '!' ∧ c ≠ '=' := by
    refine ⟨?_, ?_, ?_⟩ <;>
    · rintro rfl
      cases sigil
  obtain ⟨bracket, comment, change⟩ := special
  have cut := Text.cutAt?_append named.uncut Delimiters.standard.closing_ne_nil rest
  have opened : Text.after? Delimiters.standard.opening
      ('\x7b' :: ('\x7b' :: c :: (name.toList ++ Delimiters.standard.closing) ++ rest)) =
      some (c :: (name.toList ++ Delimiters.standard.closing ++ rest)) := rfl
  simp only [ahead, opened, ofTag, bracket, comment, change, sigil, and_false, if_false, upTo, cut,
    namedTag, named.trimmed, ok_bind, pure_eq_ok]
  rfl

def Token.lineFeed : Token := ⟨.newline .lf, .unknown, "\n"⟩

def Token.blank (text : String) : Token := ⟨.whitespace text, .unknown, text⟩

theorem Lexeme.reads_lineFeed (rest : List Char) : Reads .lineFeed rest :=
  ⟨'\n', [], rfl, rfl⟩

theorem Lexeme.reads_blank {text : String} {rest : List Char} (filled : text ≠ "")
    (inline : ∀ c ∈ text.toList, isInlineSpace c = true) (ends : startsBlank rest = false) :
    Reads (.blank text) rest := by
  have nonempty : text.toList ≠ [] := by simpa using filled
  obtain ⟨c, more, spelled⟩ := List.exists_cons_of_ne_nil nonempty
  rw [spelled] at inline
  obtain ⟨first, further⟩ := List.forall_mem_cons.mp inline
  refine ⟨c, more, spelled, ?_⟩
  have bracket : c ≠ '\x7b' := by
    rintro rfl
    cases first
  have closed : Text.after? Delimiters.standard.opening (c :: (more ++ rest)) = none := by
    simp [Text.after?, Delimiters.standard, bracket.symm]
  have spaces : more = (more ++ []).takeWhile isInlineSpace := by
    rw [List.takeWhile_append_of_pos further, List.takeWhile_nil, List.append_nil]
  have final : startsBlank [] = startsBlank rest := ends.symm
  obtain ⟨taken, left⟩ := takeWhile_agree spaces final
  rw [ahead, closed]
  dsimp only
  rw [plain_of_inline first, taken, left, ← spelled, String.ofList_toList]
  rfl

end Stencil
