import Stencil.Proofs.Token.Joined
import Stencil.Proofs.Token.Places

/-!
Reading a text in parts. Main statement: behind whole lines a text is read, or fails to be read,
as it is by itself, and where reading fails there is a tag in front of which everything can be read.
-/

namespace Stencil

def Cursor.below (lines : Nat) (cursor : Cursor) : Cursor :=
  { cursor with line := cursor.line + lines }

def Position.below (lines : Nat) (position : Position) : Position :=
  { position with line := position.line + lines }

def Token.below (lines : Nat) (token : Token) : Token :=
  { token with position := token.position.below lines }

def TokenError.below (lines : Nat) (error : TokenError) : TokenError :=
  { error with line := error.line + lines }

def Token.placed (place : Cursor → Position) (cursor : Cursor) : List Token → List Token
  | [] => []
  | token :: rest =>
      { token with position := place cursor } ::
        placed place (cursor.advance token.raw.toList) rest

namespace Cursor

theorem advance_below (lines : Nat) (cursor : Cursor) (text : List Char) :
    (cursor.below lines).advance text = (cursor.advance text).below lines := by
  induction text generalizing cursor with
  | nil => rfl
  | cons c text ih =>
      have stepped : (cursor.below lines).step c = (cursor.step c).below lines := by
        by_cases newline : c = '\n'
        · simp [step, below, newline, Nat.add_right_comm]
        · simp [step, below, newline]
      calc
        (cursor.below lines).advance (c :: text) = ((cursor.below lines).step c).advance text := rfl
        _ = ((cursor.step c).below lines).advance text := by rw [stepped]
        _ = ((cursor.step c).advance text).below lines := ih (cursor.step c)

theorem line_le_advance (cursor : Cursor) (text : List Char) :
    cursor.line ≤ (cursor.advance text).line := by
  induction text generalizing cursor with
  | nil => exact Nat.le_refl _
  | cons c text ih =>
      have stepped : cursor.line ≤ (cursor.step c).line := by
        unfold step
        split
        · exact Nat.le_succ _
        · exact Nat.le_refl _
      exact Nat.le_trans stepped (ih (cursor.step c))

theorem position_below (template : String) (front back : List String) {cursor : Cursor}
    (counted : 1 ≤ cursor.line) :
    position template (front ++ back).toArray (cursor.below front.length) =
      (position template back.toArray cursor).below front.length := by
  have index : cursor.line + front.length - 1 = front.length + (cursor.line - 1) := by omega
  simp [position, Position.below, below, index, List.getElem?_append_right]

theorem position_front (template : String) (front back : List String) {cursor : Cursor}
    (within : cursor.line ≤ front.length) (filled : front ≠ []) :
    position template (front ++ back).toArray cursor = position template front.toArray cursor := by
  have length := List.length_pos_iff.mpr filled
  have inside : cursor.line - 1 < front.length := by omega
  simp [position, List.getElem?_append_left inside]

end Cursor

namespace Lexeme

variable {d inside : Delimiters} {tokens body : List Token} {token : Token}
  {rest tail kept more : List Char} {place other : Cursor → Position} {cursor : Cursor}
  {l : Lexeme} {c : Char}

/-- That tokens can be read one after another from their characters with others behind them. The
delimiters are those in force at the first of them and those that the last one leaves in force. -/
inductive ReadsFrom : Delimiters → List Token → Delimiters → List Char → Prop where
  | nil {d : Delimiters} {rest : List Char} : ReadsFrom d [] d rest
  | cons {d inside : Delimiters} {token : Token} {tokens : List Token} {c : Char}
      {more rest : List Char} {l : Lexeme} : token.raw.toList = c :: more →
      ahead d c (more ++ (chars tokens ++ rest)) = .ok l → l.kind = token.kind →
      l.raw = c :: more → ReadsFrom l.delimiters tokens inside rest →
      ReadsFrom d (token :: tokens) inside rest

theorem rest_of_raw (read : ahead d c (more ++ rest) = .ok l) (raw : l.raw = c :: more) :
    l.rest = rest := by
  have whole := (append_of_ahead read).1
  rw [raw, List.cons_append] at whole
  exact List.append_cancel_left (List.cons.inj whole).2

theorem ReadsAll.readsFrom (reads : ReadsAll tokens rest) :
    ReadsFrom .standard tokens .standard rest := by
  induction reads with
  | nil => exact .nil
  | cons here _ ih =>
      obtain ⟨c, more, raw, read⟩ := here
      exact .cons raw read rfl rfl ih

theorem ReadsFrom.tokens_append (reads : ReadsFrom d body inside rest) (place : Cursor → Position)
    (cursor : Cursor) :
    Lexeme.tokens place d cursor (chars body ++ rest) =
      (Lexeme.tokens place inside (cursor.advance (chars body)) rest).map
        (Token.placed place cursor body ++ ·) := by
  induction reads generalizing cursor with
  | nil =>
      rw [chars_nil, List.nil_append]
      exact (congrFun Except.map_id _).symm
  | @cons d inside token tokens c more rest l raw read kind whole _ ih =>
      have left := rest_of_raw read whole
      have text : String.ofList l.raw = token.raw := by rw [whole, ← raw, String.ofList_toList]
      rw [chars_cons, raw, List.append_assoc, List.cons_append, tokens_of_ahead read, left, ih,
        whole, Cursor.advance_append]
      cases Lexeme.tokens place inside ((cursor.advance (c :: more)).advance (chars tokens))
          rest with
      | error error => rfl
      | ok later =>
          simp only [Except.map, Token.placed, List.cons_append, raw]
          rw [kind, ← whole, text]

theorem tokens_of_readsFrom (reads : ReadsFrom d body inside []) (place : Cursor → Position)
    (cursor : Cursor) :
    Lexeme.tokens place d cursor (chars body) = .ok (Token.placed place cursor body ++
      [⟨.eof, place (cursor.advance (chars body)), ""⟩]) := by
  have whole := reads.tokens_append place cursor
  rw [List.append_nil, Lexeme.tokens.eq_def place inside] at whole
  exact whole

theorem readsFrom_of_error {cs : List Char} {error : TokenError}
    (failed : Lexeme.tokens place d cursor cs = .error error) :
    ∃ body inside after, cs = chars body ++ (inside.opening ++ after) ∧
      ReadsFrom d body inside (inside.opening ++ after) ∧ ofTag inside after = .error error.fault ∧
      cursor.advance (chars body) = ⟨error.line, error.column⟩ := by
  fun_induction Lexeme.tokens place d cursor cs with
  | case1 => cases failed
  | case2 d cursor c rest fault ahead =>
      cases failed
      unfold Lexeme.ahead at ahead
      split at ahead
      · next after opens =>
          exact ⟨[], d, after, (Text.append_of_after? opens).symm, .nil, ahead, rfl⟩
      · cases ahead
  | case3 d cursor c rest l ahead problem more ih =>
      cases failed
      obtain ⟨body, inside, after, left, reads, fault, place⟩ := ih more
      obtain ⟨whole, filled⟩ := append_of_ahead ahead
      obtain ⟨first, run, raw⟩ := List.exists_cons_of_ne_nil filled
      rw [raw, List.cons_append, List.cons.injEq] at whole
      obtain ⟨rfl, same⟩ := whole
      refine ⟨⟨l.kind, .unknown, String.ofList l.raw⟩ :: body, inside, after, ?_, ?_, fault, ?_⟩
      · rw [chars_cons, String.toList_ofList, raw, ← same, left, List.append_assoc]
        rfl
      · refine .cons (l := l) (by rw [String.toList_ofList, raw]) ?_ rfl raw reads
        rw [← left, same, ahead]
      · rw [chars_cons, String.toList_ofList, Cursor.advance_append]
        exact place
  | case4 => cases failed

theorem ReadsFrom.inForce (reads : ReadsFrom d body inside rest) (plainly : d.IsPlain) :
    inside.texts = Token.inForce d.texts body ∧ inside.IsPlain := by
  induction reads with
  | nil => exact ⟨rfl, plainly⟩
  | @cons d inside token tokens c more rest l raw read kind whole _ ih =>
      have here := isRead_of_ahead plainly read
      obtain ⟨texts, still⟩ := ih (here.plain plainly)
      refine ⟨?_, still⟩
      have one := here.inForce token.position token.raw
      rw [kind] at one
      rw [texts, one]
      rfl

theorem inForce_placed (standing : String × String) (place : Cursor → Position) (cursor : Cursor)
    (tokens : List Token) :
    Token.inForce standing (Token.placed place cursor tokens) = Token.inForce standing tokens := by
  induction tokens generalizing standing cursor with
  | nil => rfl
  | cons token tokens ih => exact ih _ _

theorem endsText_append {opening cs : List Char} (filled : cs ≠ [])
    (ends : endsText opening cs = true) (tail : List Char) :
    endsText opening (cs ++ tail) = true := by
  obtain ⟨c, rest, rfl⟩ := List.exists_cons_of_ne_nil filled
  simp only [endsText, List.cons_append] at ends ⊢
  split
  · rfl
  · next ordinary =>
      rw [if_neg ordinary] at ends
      split
      · next carriage =>
          rw [if_pos carriage] at ends
          cases rest with
          | nil => simp at ends
          | cons next rest => exact ends
      · next other =>
          rw [if_neg other, List.isPrefixOf_iff_prefix] at ends
          rw [List.isPrefixOf_iff_prefix]
          exact ends.trans (List.prefix_append (c :: rest) tail)

theorem exists_opening (plainly : d.IsPlain) :
    ∃ c opening, d.opening = c :: opening ∧ Text.isBlank c = false := by
  obtain ⟨c, opening, same⟩ := List.exists_cons_of_ne_nil d.opening_ne_nil
  exact ⟨c, opening, same, (plainly c (by simp [same])).1⟩

theorem startsBlank_opening (plainly : d.IsPlain) (after : List Char) :
    startsBlank (d.opening ++ after) = false := by
  obtain ⟨c, opening, same, letter⟩ := exists_opening plainly
  rw [same, List.cons_append, startsBlank, List.head?_cons, Option.any_some]
  by_contra inline
  rw [Bool.not_eq_false, isInlineSpace, Bool.or_eq_true, decide_eq_true_eq, decide_eq_true_eq]
    at inline
  rcases inline with rfl | rfl
  · cases letter
  · cases letter

theorem endsText_opening (plainly : d.IsPlain) (after : List Char) :
    endsText d.opening (d.opening ++ after) = true := by
  obtain ⟨c, opening, same, letter⟩ := exists_opening plainly
  have carriage : c ≠ '\r' := by
    rintro rfl
    cases letter
  have opens : (d.opening).isPrefixOf (d.opening ++ after) = true :=
    List.isPrefixOf_iff_prefix.mpr (List.prefix_append _ _)
  rw [same, List.cons_append] at opens ⊢
  simp only [endsText, carriage, if_false, opens, ite_self]

theorem ReadsFrom.ends (reads : ReadsFrom d body inside (inside.opening ++ tail))
    (plainly : d.IsPlain)
    (ends : endsText d.opening (chars body ++ (inside.opening ++ tail)) = true) :
    endsText d.opening (chars body) = true := by
  have opening := (reads.inForce plainly).2
  cases reads with
  | nil => rfl
  | @cons _ _ token tokens c more _ l raw read kind whole further =>
      rw [chars_cons, raw, List.append_assoc, List.cons_append] at ends
      rw [chars_cons, raw, List.cons_append]
      cases opens : Text.after? d.opening
        (c :: (more ++ (chars tokens ++ (inside.opening ++ tail)))) with
      | some after =>
          simp only [ahead, opens] at read
          obtain ⟨inner, -, spelled, -⟩ := ofTag_local read
          rw [whole] at spelled
          rw [← List.cons_append, spelled, List.append_assoc]
          exact endsText_opening plainly _
      | none =>
          obtain inline | rfl | rfl | rfl | ⟨left, rfl, following⟩ := endsText_cases ends opens
          · simp only [isInlineSpace, Bool.or_eq_true, decide_eq_true_eq] at inline
            rcases inline with rfl | rfl <;> rfl
          · rfl
          · rfl
          · rfl
          · rw [← List.append_assoc] at following
            cases kept : more ++ chars tokens with
            | nil =>
                obtain ⟨first, opening, same, letter⟩ := exists_opening opening
                rw [kept, List.nil_append, same, List.cons_append, List.cons.injEq] at following
                rw [following.1] at letter
                cases letter
            | cons next others =>
                rw [kept, List.cons_append, List.cons.injEq] at following
                rw [following.1]
                rfl

theorem ahead_cut {text : List Char} (read : ahead d c (more ++ (text ++ tail)) = .ok l)
    (raw : l.raw = c :: more)
    (ends : l.delimiters = d → endsText d.opening (text ++ tail) = true →
      endsText d.opening text = true)
    (blank : l.delimiters = d → startsBlank (text ++ tail) = startsBlank text) :
    ahead d c (more ++ text) = .ok { l with rest := text } := by
  cases opens : Text.after? d.opening (c :: (more ++ (text ++ tail))) with
  | some after =>
      simp only [ahead, opens] at read
      obtain ⟨inner, -, spelled, -, again⟩ := ofTag_local read
      rw [raw] at spelled
      have still : c :: (more ++ text) = d.opening ++ (inner ++ text) := by
        rw [← List.cons_append, spelled, List.append_assoc]
      rw [ahead, still, Text.after?_append]
      exact again text
  | none =>
      have closed : Text.after? d.opening (c :: (more ++ text)) = none :=
        Text.after?_front tail (by simpa using opens)
      simp only [ahead, opens, Except.ok.injEq] at read
      subst read
      have goes : ∀ last, last <:+ c :: more → last ≠ [] →
          endsText d.opening (last ++ (text ++ tail)) = false →
          endsText d.opening (last ++ text) = false := by
        intro last _ filled further
        by_contra ends
        rw [Bool.not_eq_false] at ends
        have sooner := endsText_append (by simp [filled]) ends tail
        rw [List.append_assoc, further] at sooner
        cases sooner
      rw [ahead, closed]
      exact congrArg Except.ok (plain_apart raw opens goes (ends (delimiters_plain ..))
        (blank (delimiters_plain ..)))

theorem ahead_truncated (plainly : d.IsPlain)
    (read : ahead d c (more ++ (chars body ++ (inside.opening ++ tail))) = .ok l)
    (raw : l.raw = c :: more)
    (reads : ReadsFrom l.delimiters body inside (inside.opening ++ tail)) :
    ahead d c (more ++ chars body) = .ok { l with rest := chars body } := by
  have opening := (reads.inForce ((isRead_of_ahead plainly read).plain plainly)).2
  refine ahead_cut read raw (fun still => (still ▸ reads).ends plainly) fun _ => ?_
  cases chars body with
  | nil => exact startsBlank_opening opening tail
  | cons first others => rfl

theorem ReadsFrom.truncate (plainly : d.IsPlain)
    (reads : ReadsFrom d body inside (inside.opening ++ tail)) : ReadsFrom d body inside [] := by
  generalize same : inside.opening ++ tail = rest at reads
  induction reads with
  | nil => exact .nil
  | @cons d inside token tokens c more rest l raw read kind whole further ih =>
      subst same
      have inner := ih ((isRead_of_ahead plainly read).plain plainly) rfl
      have sooner := ahead_truncated plainly read whole further
      have alone : ahead d c (more ++ (chars tokens ++ [])) =
          .ok { l with rest := chars tokens } := by rw [List.append_nil, sooner]
      exact .cons raw alone kind whole inner

theorem tokens_of_fault {fault : TagFault} (read : ahead d c rest = .error fault) :
    Lexeme.tokens place d cursor (c :: rest) = .error ⟨fault, cursor.line, cursor.column⟩ := by
  rw [Lexeme.tokens]
  split
  · next found =>
      cases read.symm.trans found
      rfl
  · next found => cases read.symm.trans found

theorem tokens_below {lines : Nat} {cs : List Char}
    (moved : ∀ cursor : Cursor, 1 ≤ cursor.line →
      other (cursor.below lines) = (place cursor).below lines) (counted : 1 ≤ cursor.line) :
    Lexeme.tokens other d (cursor.below lines) cs =
      ((Lexeme.tokens place d cursor cs).map (List.map (Token.below lines))).mapError
        (TokenError.below lines) := by
  fun_induction Lexeme.tokens place d cursor cs with
  | case1 d cursor =>
      rw [Lexeme.tokens, moved cursor counted]
      rfl
  | case2 d cursor c rest fault read =>
      rw [tokens_of_fault read]
      rfl
  | case3 d cursor c rest l read error more ih =>
      have later := ih (Nat.le_trans counted (cursor.line_le_advance l.raw))
      rw [more] at later
      rw [tokens_of_ahead read, Cursor.advance_below, later]
      rfl
  | case4 d cursor c rest l read tokens more ih =>
      have later := ih (Nat.le_trans counted (cursor.line_le_advance l.raw))
      rw [more] at later
      rw [tokens_of_ahead read, Cursor.advance_below, later, moved cursor counted]
      rfl

theorem placed_congr
    (same : ∀ front token back, tokens = front ++ token :: back →
      place (cursor.advance (chars front)) = other (cursor.advance (chars front))) :
    Token.placed place cursor tokens = Token.placed other cursor tokens := by
  induction tokens generalizing cursor with
  | nil => rfl
  | cons token tokens ih =>
      have here : place cursor = other cursor := same [] token tokens rfl
      have further : Token.placed place (cursor.advance token.raw.toList) tokens =
          Token.placed other (cursor.advance token.raw.toList) tokens := by
        apply ih
        intro front next back split
        have later := same (token :: front) next back (by rw [split, List.cons_append])
        rwa [chars_cons, Cursor.advance_append] at later
      rw [Token.placed, Token.placed, here, further]

end Lexeme

open Lexeme Text

theorem exists_lines_front {first : List Char} (ends : first = [] ∨ first.getLast? = some '\n') :
    ∃ front, front.length = first.count '\n' ∧ lines first = front ++ [[]] ∧
      ∀ second, lines (first ++ second) = front ++ lines second := by
  rcases ends with rfl | last
  · exact ⟨[], rfl, rfl, fun _ => rfl⟩
  · obtain ⟨before, rfl⟩ := List.getLast?_eq_some_iff.mp last
    refine ⟨lines before, ?_, ?_, ?_⟩
    · rw [length_lines, List.count_append, List.count_singleton_self]
    · exact lines_append_newline before []
    · intro second
      rw [List.append_assoc]
      exact lines_append_newline before second

theorem Cursor.advance_lines {first : List Char} (ends : first = [] ∨ first.getLast? = some '\n') :
    start.advance first = start.below (first.count '\n') := by
  have closed : openLine first = [] := by
    rcases ends with rfl | last
    · rfl
    · obtain ⟨before, rfl⟩ := List.getLast?_eq_some_iff.mp last
      exact openLine_newline before
  rw [advance_start, closed]
  rfl

namespace Lexeme

variable {body : List Token} {template : String}

theorem ReadsAll.readsFrom_lines (reads : ReadsAll body [])
    (ends : chars body = [] ∨ (chars body).getLast? = some '\n') (other : List Char) :
    ReadsFrom .standard body .standard other := by
  rcases ends with empty | last
  · cases reads with
    | nil => exact .nil
    | cons here _ =>
        obtain ⟨c, more, raw, -⟩ := here
        rw [chars_cons, raw] at empty
        cases empty
  · obtain ⟨front, newline, ending, rfl, kind⟩ := reads.exists_newline last
    exact (reads.in_front kind other).readsFrom

theorem placed_lines {front : List String} (reads : ReadsAll body [])
    (counted : front.length = (chars body).count '\n')
    (ends : chars body = [] ∨ (chars body).getLast? = some '\n') (back others : List String) :
    Token.placed (Cursor.position template (front ++ back).toArray) .start body =
      Token.placed (Cursor.position template (front ++ others).toArray) .start body := by
  apply placed_congr
  rintro before token after rfl
  obtain ⟨-, further⟩ := reads.of_append
  obtain _ | ⟨⟨c, more, raw, -⟩, -⟩ := further
  have filled : chars (token :: after) ≠ [] := by simp [chars_cons, raw]
  rw [chars_append] at ends counted
  have last : (chars (token :: after)).getLast? = some '\n' := by
    rcases ends with empty | last
    · exact absurd (List.append_eq_nil_iff.mp empty).2 filled
    · rwa [List.getLast?_append_of_ne_nil _ filled] at last
  have closes : 0 < (chars (token :: after)).count '\n' :=
    List.count_pos_iff.mpr (List.mem_of_getLast? last)
  rw [List.count_append] at counted
  have nonempty : front ≠ [] := by
    rintro rfl
    rw [List.length_nil] at counted
    omega
  have within : (Cursor.start.advance (chars before)).line ≤ front.length := by
    rw [Cursor.advance_start, counted]
    dsimp only
    omega
  rw [Cursor.position_front template front back within nonempty,
    Cursor.position_front template front others within nonempty]

end Lexeme

/-- Behind whole lines that change no delimiters, the tokens of a text are those it has by itself,
as many lines further down, and so is its fault. -/
theorem tokenize_behind {template first : String} {tokens : List Token}
    (read : tokenize template first = .ok tokens)
    (unchanged : ∀ token ∈ tokens, ∀ opening closing, token.kind ≠ .delimiters opening closing)
    (ends : first = "" ∨ first.toList.getLast? = some '\n') (second : String) :
    ∃ body position, tokens = body ++ [⟨.eof, position, ""⟩] ∧
      tokenize template (first ++ second) =
        ((tokenize template second).map fun after =>
          body ++ after.map (Token.below (first.toList.count '\n'))).mapError
          (TokenError.below (first.toList.count '\n')) := by
  obtain ⟨body, position, rfl, whole, reads⟩ := readsAll_of_tokenize read unchanged
  have closed : first.toList = [] ∨ first.toList.getLast? = some '\n' :=
    ends.imp_left fun empty => by rw [empty, String.toList_empty]
  obtain ⟨front, length, linesFirst, linesBoth⟩ := exists_lines_front closed
  refine ⟨body, position, rfl, ?_⟩
  rw [← whole] at closed length linesFirst linesBoth ⊢
  let shown := fun line => String.ofList (dropReturn line)
  have counted : (front.map shown).length = (chars body).count '\n' := by
    rw [List.length_map, length]
  have kept : Token.placed
      (Cursor.position template (front.map shown ++ [""]).toArray) .start body = body := by
    have alone := tokens_of_readsFrom reads.readsFrom
      (Cursor.position template ((lines (chars body)).map shown).toArray) .start
    rw [tokenize, ← whole, alone, linesFirst, List.map_append] at read
    exact List.append_inj_left' (Except.ok.inj read) rfl
  have follows := (reads.readsFrom_lines closed second.toList).tokens_append
    (Cursor.position template ((lines (chars body ++ second.toList)).map shown).toArray) .start
  have below : ∀ cursor : Cursor, 1 ≤ cursor.line →
      Cursor.position template (front.map shown ++ (lines second.toList).map shown).toArray
        (cursor.below ((chars body).count '\n')) =
      (Cursor.position template ((lines second.toList).map shown).toArray cursor).below
        ((chars body).count '\n') := by
    intro cursor first
    rw [← counted]
    exact Cursor.position_below template _ _ first
  rw [tokenize, String.toList_append, ← whole, follows, linesBoth, List.map_append,
    placed_lines reads counted closed _ [""], kept, Cursor.advance_lines closed,
    tokens_below below (Nat.le_refl 1), tokenize]
  cases Lexeme.tokens (Cursor.position template ((lines second.toList).map shown).toArray)
    .standard .start second.toList with
  | error error => rfl
  | ok after => rfl

/-- A text that cannot be read has a faulty tag, and what stands in front of the tag can be read. -/
theorem tokenize_before_fault {template source : String} {error : TokenError}
    (failed : tokenize template source = .error error) :
    ∃ before d after tokens, source.toList = before ++ (d.opening ++ after) ∧
      error.line = 1 + before.count '\n' ∧ error.column = 1 + (openLine before).length ∧
      ofTag d after = .error error.fault ∧
      tokenize template (String.ofList before) = .ok tokens ∧
      d.texts = Token.inForce Delimiters.standard.texts tokens := by
  obtain ⟨body, d, after, whole, reads, fault, place⟩ := readsFrom_of_error failed
  have alone := reads.truncate Delimiters.isPlain_standard
  rw [Cursor.advance_start, Cursor.mk.injEq] at place
  have read := tokens_of_readsFrom alone
    (Cursor.position template
      ((lines (chars body)).map fun line => String.ofList (dropReturn line)).toArray) .start
  rw [← String.toList_ofList (l := chars body)] at read
  refine ⟨chars body, d, after, _, whole, place.1.symm, place.2.symm, fault, read, ?_⟩
  calc
    d.texts = Token.inForce Delimiters.standard.texts body :=
      (reads.inForce Delimiters.isPlain_standard).1
    _ = Token.inForce Delimiters.standard.texts (Token.placed _ .start body) :=
      (inForce_placed _ _ _ body).symm
    _ = _ := by rw [Token.inForce, Token.inForce, List.foldl_append]; rfl

/-- Whole lines that change no delimiters are read apart from what is behind them: the tokens of
that follow theirs, as many lines further down, or its fault does. Wherever reading fails, it fails
at the delimiter that opens a tag, and what stands in front of this delimiter can be read. -/
theorem tokenize_in_parts (template : String) :
    (∀ first second tokens, tokenize template first = .ok tokens →
      (∀ token ∈ tokens, ∀ opening closing, token.kind ≠ .delimiters opening closing) →
      (first = "" ∨ first.toList.getLast? = some '\n') →
      ∃ body position, tokens = body ++ [⟨.eof, position, ""⟩] ∧
        tokenize template (first ++ second) =
          ((tokenize template second).map fun after =>
            body ++ after.map (Token.below (first.toList.count '\n'))).mapError
            (TokenError.below (first.toList.count '\n'))) ∧
      ∀ source error, tokenize template source = .error error →
        ∃ before d after tokens, source.toList = before ++ (d.opening ++ after) ∧
          error.line = 1 + before.count '\n' ∧ error.column = 1 + (openLine before).length ∧
          ofTag d after = .error error.fault ∧
          tokenize template (String.ofList before) = .ok tokens ∧
          d.texts = Token.inForce Delimiters.standard.texts tokens :=
  ⟨fun _ second _ read unchanged ends => tokenize_behind read unchanged ends second,
    fun _ _ failed => tokenize_before_fault failed⟩

theorem tokenize_in_parts_changed :
    ∃ (first second : String) (d : Delimiters) (before after : List Char) (tokens : List Token),
      first = "{{! a }}\r\nb\n" ∧ second = "{{=< >=}}\nb <c" ∧
        tokenize "page" second = .error ⟨.unterminated ">", 2, 3⟩ ∧
        tokenize "page" (first ++ second) = .error ⟨.unterminated ">", 4, 3⟩ ∧
        (first ++ second).toList = before ++ (d.opening ++ after) ∧ 4 = 1 + before.count '\n' ∧
        tokenize "page" (String.ofList before) = .ok tokens ∧
        d.texts = Token.inForce Delimiters.standard.texts tokens := by
  let first := "{{! a }}\r\nb\n"
  let second := "{{=< >=}}\nb <c"
  let kept : List Token :=
    [⟨.comment " a ", ⟨"page", 1, 1, "{{! a }}"⟩, "{{! a }}"⟩,
      ⟨.newline .crlf, ⟨"page", 1, 9, "{{! a }}"⟩, "\r\n"⟩, ⟨.text "b", ⟨"page", 2, 1, "b"⟩, "b"⟩,
      ⟨.newline .lf, ⟨"page", 2, 2, "b"⟩, "\n"⟩, ⟨.eof, ⟨"page", 3, 1, ""⟩, ""⟩]
  have read : tokenize "page" first = .ok kept := by decide +kernel
  have failed : tokenize "page" second = .error ⟨.unterminated ">", 2, 3⟩ := by decide +kernel
  have lines : first.toList.count '\n' = 2 := by decide +kernel
  obtain ⟨apart, faulty⟩ := tokenize_in_parts "page"
  obtain ⟨body, position, -, whole⟩ :=
    apart first second kept read (by simp [kept]) (.inr (by decide +kernel))
  have below : tokenize "page" (first ++ second) = .error ⟨.unterminated ">", 4, 3⟩ := by
    rw [whole, failed, lines]
    rfl
  obtain ⟨before, d, after, tokens, same, line, -, -, reads, standing⟩ := faulty _ _ below
  exact ⟨first, second, d, before, after, tokens, rfl, rfl, failed, below, same, line, reads,
    standing⟩

end Stencil
