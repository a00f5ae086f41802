import Mathlib.Data.List.Chain
import Stencil.Proofs.Token.Reading

/-!
How tokens are written. Main statement: the raw text of a token is its kind, written with the
delimiters in force at it and read as far as its first end.
-/

namespace Stencil

namespace Text

variable {c : Char} {mark cs content rest w : List Char}

def IsFirst (mark content rest : List Char) : Prop :=
  ∀ front back, content ++ mark ++ rest = front ++ mark ++ back → content.length ≤ front.length

/-- That some content is a name with nothing but blanks around it. -/
def IsPadded (name : String) (content : List Char) : Prop :=
  name ≠ "" ∧ (∀ c ∈ name.toList, isBlank c = false) ∧
    ∃ left right, content = left ++ name.toList ++ right ∧
      ∀ c ∈ left ++ right, isBlank c = true

theorem isFirst_of_cutAt? (cut : cutAt? mark cs = some (content, rest)) :
    IsFirst mark content rest := by
  intro front back same
  rw [append_of_cutAt? cut] at same
  induction cs generalizing content front with
  | nil => cases cut
  | cons c cs ih =>
      simp only [cutAt?] at cut
      split at cut
      · obtain ⟨rfl, -⟩ := Prod.mk.inj (Option.some.inj cut)
        exact Nat.zero_le _
      · next missing =>
          simp only [Option.map_eq_some_iff, Prod.exists, Prod.mk.injEq] at cut
          obtain ⟨left, right, tail, rfl, rfl⟩ := cut
          cases front with
          | nil =>
              rw [same, List.nil_append, after?_append] at missing
              cases missing
          | cons first front => exact Nat.succ_le_succ (ih tail front (List.cons.inj same).2)

theorem exists_trim (cs : List Char) :
    ∃ left right, cs = left ++ trim cs ++ right ∧ ∀ c ∈ left ++ right, isBlank c = true := by
  have front := List.takeWhile_append_dropWhile (p := isBlank) (l := cs)
  have back := List.takeWhile_append_dropWhile (p := isBlank) (l := (cs.dropWhile isBlank).reverse)
  refine ⟨cs.takeWhile isBlank, ((cs.dropWhile isBlank).reverse.takeWhile isBlank).reverse, ?_, ?_⟩
  · rw [List.append_assoc, trim, ← List.reverse_append, back, List.reverse_reverse, front]
  · simp only [List.mem_append, List.mem_reverse]
    rintro c (member | member)
    · exact List.all_eq_true.mp List.all_takeWhile c member
    · exact List.all_eq_true.mp List.all_takeWhile c member

theorem not_blank_of_mem_wordsFrom {word : List Char} (filled : ∀ c ∈ word, isBlank c = false)
    (member : w ∈ wordsFrom word cs) : ∀ c ∈ w, isBlank c = false := by
  induction cs generalizing word with
  | nil =>
      simp only [wordsFrom] at member
      split at member
      · cases member
      · rwa [List.mem_singleton.mp member]
  | cons c rest ih =>
      simp only [wordsFrom] at member
      split at member
      · split at member
        · exact ih (by simp) member
        · obtain rfl | later := List.mem_cons.mp member
          · exact filled
          · exact ih (by simp) later
      · next letter =>
          refine ih ?_ member
          simp only [List.mem_append, List.mem_singleton]
          rintro x (earlier | rfl)
          · exact filled x earlier
          · exact eq_false_of_ne_true letter

theorem not_blank_of_mem_words (member : w ∈ words cs) : ∀ c ∈ w, isBlank c = false :=
  not_blank_of_mem_wordsFrom (by simp) member

end Text

namespace Delimiters

/-- That delimiters can be named in a change of delimiters. -/
def IsPlain (d : Delimiters) : Prop :=
  ∀ c ∈ d.opening ++ d.closing, Text.isBlank c = false ∧ c ≠ '='

def isMark (d : Delimiters) (c : Char) : Bool :=
  (d = .standard && c = '\x7b') || c = '!' || c = '=' || (Lexeme.sigilKind? c).isSome

theorem isPlain_standard : standard.IsPlain := by
  intro c member
  obtain rfl | rfl : c = '\x7b' ∨ c = '\x7d' := by simpa [standard] using member
  · exact ⟨rfl, by decide⟩
  · exact ⟨rfl, by decide⟩

theorem ofContent_ok {content : List Char} {d : Delimiters} (named : ofContent content = .ok d) :
    Text.words content = [d.opening, d.closing] ∧ d.IsPlain := by
  unfold ofContent at named
  split at named
  · next opening closing split =>
      split at named
      · cases named
      · next clean =>
          cases named
          refine ⟨split, ?_⟩
          have member : opening ∈ Text.words content ∧ closing ∈ Text.words content := by
            rw [split]
            simp
          rw [not_or] at clean
          intro c inside
          obtain here | here := List.mem_append.mp inside
          · exact ⟨Text.not_blank_of_mem_words member.1 c here, fun same => clean.1 (same ▸ here)⟩
          · exact ⟨Text.not_blank_of_mem_words member.2 c here, fun same => clean.2 (same ▸ here)⟩
  · cases named

end Delimiters

/-- That a token of a kind is written as some characters with others behind them, with the
delimiters given. Tags and comments go on to the first end, and text stops where anything else
begins. -/
inductive TokenKind.IsWritten (d : Delimiters) : TokenKind → List Char → List Char → Prop where
  | tag {kind : TagKind} {name : String} {content rest : List Char} :
      Text.IsPadded name content → Text.IsFirst d.closing content rest →
      (kind = .escaped → ∀ c ∈ content.head?, d.isMark c = false) →
      IsWritten d (.tag kind name) (d.opening ++ kind.sigil.toList ++ content ++ d.closing) rest
  | triple {name : String} {content rest : List Char} : d = .standard →
      Text.IsPadded name content → Text.IsFirst ('\x7d' :: d.closing) content rest →
      IsWritten d (.tag .unescaped name)
        (d.opening ++ ['\x7b'] ++ content ++ '\x7d' :: d.closing) rest
  | comment {content rest : List Char} : Text.IsFirst d.closing content rest →
      IsWritten d (.comment (String.ofList content)) (d.opening ++ ['!'] ++ content ++ d.closing)
        rest
  | delimiters {next : Delimiters} {content rest : List Char} :
      Text.words content = [next.opening, next.closing] → next.IsPlain →
      Text.IsFirst ('=' :: d.closing) content rest →
      IsWritten d (.delimiters (String.ofList next.opening) (String.ofList next.closing))
        (d.opening ++ ['='] ++ content ++ '=' :: d.closing) rest
  | newline {rest : List Char} (ending : LineEnding) :
      IsWritten d (.newline ending) ending.text.toList rest
  | special {rest : List Char} (mark : SpecialMark) :
      IsWritten d (.special mark) mark.text.toList rest
  | whitespace {run rest : List Char} : run ≠ [] → (∀ c ∈ run, c = ' ' ∨ c = '\t') →
      IsWritten d (.whitespace (String.ofList run)) run rest
  | text {run rest : List Char} : run ≠ [] →
      (∀ front c back, run = front ++ c :: back →
        c ≠ ' ' ∧ c ≠ '\t' ∧ c ≠ '\n' ∧ c ≠ '"' ∧ c ≠ '\\' ∧
          (c = '\r' → (back ++ rest).head? ≠ some '\n') ∧ ¬ d.opening <+: c :: (back ++ rest)) →
      IsWritten d (.text (String.ofList run)) run rest
  | eof : IsWritten d .eof [] []

/-- The delimiters that some tokens leave in force: those of the latest change among them. -/
def Token.inForce (standing : String × String) (tokens : List Token) : String × String :=
  tokens.foldl
    (fun standing token =>
      match token.kind with
      | .delimiters opening closing => (opening, closing)
      | _ => standing)
    standing

def Delimiters.texts (d : Delimiters) : String × String :=
  (String.ofList d.opening, String.ofList d.closing)

namespace Lexeme

variable {c : Char} {lead terminator content cs rest : List Char} {d : Delimiters} {l : Lexeme}
  {interpret : List Char → Except TagFault (TokenKind × Delimiters)}

theorem upTo_ok (read : upTo lead terminator cs interpret = .ok l) :
    ∃ content, cs = content ++ terminator ++ l.rest ∧ l.raw = lead ++ content ++ terminator ∧
      Text.IsFirst terminator content l.rest ∧ interpret content = .ok (l.kind, l.delimiters) := by
  unfold upTo at read
  split at read
  · cases read
  · next content after cut =>
      obtain ⟨⟨kind, delimiters⟩, interpreted, made⟩ := bind_eq_ok.mp read
      cases made
      exact ⟨content, (Text.append_of_cutAt? cut).symm, rfl, Text.isFirst_of_cutAt? cut,
        interpreted⟩

theorem isPadded_of_nameIn {name : String} (named : nameIn content = .ok name) :
    Text.IsPadded name content := by
  unfold nameIn at named
  dsimp only at named
  split at named
  · cases named
  · next filled =>
      split at named
      · cases named
      · next letters =>
          cases named
          rw [Text.IsPadded, String.toList_ofList]
          refine ⟨?_, by simpa using letters, Text.exists_trim content⟩
          intro empty
          rw [← String.ofList_nil, String.ofList_inj] at empty
          rw [empty] at filled
          exact filled rfl

theorem namedTag_ok {kind : TagKind} {found : TokenKind} {after : Delimiters}
    (named : namedTag d kind content = .ok (found, after)) :
    ∃ name, found = .tag kind name ∧ after = d ∧ Text.IsPadded name content := by
  obtain ⟨name, trimmed, made⟩ := bind_eq_ok.mp named
  cases made
  exact ⟨name, rfl, rfl, isPadded_of_nameIn trimmed⟩

theorem delimiterTag_ok {found : TokenKind} {after : Delimiters}
    (changed : delimiterTag content = .ok (found, after)) :
    found = .delimiters (String.ofList after.opening) (String.ofList after.closing) ∧
      Text.words content = [after.opening, after.closing] ∧ after.IsPlain := by
  obtain ⟨next, named, made⟩ := bind_eq_ok.mp changed
  cases made
  exact ⟨rfl, Delimiters.ofContent_ok named⟩

structure IsRead (d : Delimiters) (l : Lexeme) : Prop where
  written : l.kind.IsWritten d l.raw l.rest
  inForce : ∀ position raw,
    l.delimiters.texts = Token.inForce d.texts [⟨l.kind, position, raw⟩]
  plain : d.IsPlain → l.delimiters.IsPlain

theorem IsRead.of_kept (written : l.kind.IsWritten d l.raw l.rest) (kept : l.delimiters = d)
    (unchanged : ∀ opening closing, l.kind ≠ .delimiters opening closing) : IsRead d l := by
  refine ⟨written, ?_, fun plain => kept ▸ plain⟩
  intro position raw
  simp only [Token.inForce, List.foldl_cons, List.foldl_nil, kept]

theorem isRead_of_namedTag {kind : TagKind}
    (read : upTo lead terminator cs (namedTag d kind) = .ok l)
    (written : ∀ name content, cs = content ++ terminator ++ l.rest → Text.IsPadded name content →
      Text.IsFirst terminator content l.rest →
      TokenKind.IsWritten d (.tag kind name) (lead ++ content ++ terminator) l.rest) :
    IsRead d l := by
  obtain ⟨content, whole, raw, first, named⟩ := upTo_ok read
  obtain ⟨name, found, kept, padded⟩ := namedTag_ok named
  refine .of_kept ?_ kept ?_
  · rw [found, raw]
    exact written name content whole padded first
  · rintro opening closing change
    cases found.symm.trans change

theorem isRead_of_comment (read : upTo (d.opening ++ ['!']) d.closing cs (commentTag d) = .ok l) :
    IsRead d l := by
  obtain ⟨content, -, raw, first, made⟩ := upTo_ok read
  obtain ⟨kind, kept⟩ := Prod.mk.inj (Except.ok.inj made)
  refine .of_kept ?_ kept.symm ?_
  · rw [← kind, raw]
    exact .comment first
  · rintro opening closing change
    cases kind.trans change

theorem isRead_of_change
    (read : upTo (d.opening ++ ['=']) ('=' :: d.closing) cs delimiterTag = .ok l) :
    IsRead d l := by
  obtain ⟨content, -, raw, first, changed⟩ := upTo_ok read
  obtain ⟨kind, words, plain⟩ := delimiterTag_ok changed
  refine ⟨?_, ?_, fun _ => plain⟩
  · rw [kind, raw]
    exact .delimiters words plain first
  · intro position raw
    rw [kind]
    rfl

theorem isRead_of_ofTag (read : ofTag d cs = .ok l) : IsRead d l := by
  cases cs with
  | nil =>
      rw [ofTag] at read
      obtain ⟨content, whole, -⟩ := upTo_ok read
      simp [d.closing_ne_nil] at whole
  | cons c rest =>
      unfold ofTag at read
      dsimp only at read
      split at read
      · next triple =>
          obtain ⟨standard, rfl⟩ := triple
          refine isRead_of_namedTag read ?_
          intro name content _ padded first
          exact .triple standard padded first
      · next single =>
          split at read
          · next comment =>
              subst comment
              exact isRead_of_comment read
          · next noComment =>
              split at read
              · next change =>
                  subst change
                  exact isRead_of_change read
              · next noChange =>
                  split at read
                  · next kind sigil =>
                      refine isRead_of_namedTag read ?_
                      intro name content _ padded first
                      have mark : kind.sigil.toList = [c] := by
                        rw [sigil_of_sigilKind? sigil, String.toList_singleton]
                      have named : kind ≠ .escaped := by
                        rintro rfl
                        cases mark
                      rw [← mark]
                      exact .tag padded first (fun escaped => absurd escaped named)
                  · next noSigil =>
                      refine isRead_of_namedTag read ?_
                      intro name content whole padded first
                      have bare : d.isMark c = false := by
                        simpa [Delimiters.isMark, noComment, noChange, noSigil] using
                          not_and.mp single
                      have written : TokenKind.IsWritten d (.tag .escaped name)
                          (d.opening ++ TagKind.escaped.sigil.toList ++ content ++ d.closing)
                          l.rest := by
                        refine .tag padded first ?_
                        intro _ first member
                        obtain ⟨more, rfl⟩ := List.head?_eq_some_iff.mp (Option.mem_def.mp member)
                        rw [← (List.cons.inj whole).1]
                        exact bare
                      rwa [show TagKind.escaped.sigil.toList = [] from rfl, List.append_nil]
                        at written

theorem goes_of_textRun {opening : List Char} {front back : List Char}
    (run : (textRun opening cs).1 = front ++ c :: back) :
    endsText opening (c :: (back ++ (textRun opening cs).2)) = false := by
  induction cs generalizing front with
  | nil => simp [textRun] at run
  | cons first rest ih =>
      unfold textRun at run ⊢
      split at run
      · simp at run
      · next goes =>
          rw [if_neg goes]
          cases front with
          | nil =>
              obtain ⟨rfl, rfl⟩ := List.cons.inj run
              rw [textRun_append]
              exact eq_false_of_ne_true goes
          | cons other front => exact ih (List.cons.inj run).2

theorem ends_of_textRun (opening cs : List Char) :
    endsText opening (textRun opening cs).2 = true := by
  induction cs with
  | nil => rfl
  | cons c rest ih =>
      unfold textRun
      split
      · next ends => exact ends
      · exact ih

theorem ordinary_of_goes {back : List Char} (plain : d.IsPlain)
    (goes : endsText d.opening (c :: back) = false) :
    c ≠ ' ' ∧ c ≠ '\t' ∧ c ≠ '\n' ∧ c ≠ '"' ∧ c ≠ '\\' ∧
      (c = '\r' → back.head? ≠ some '\n') ∧ ¬ d.opening <+: c :: back := by
  rw [endsText] at goes
  split at goes
  · cases goes
  · next ordinary =>
      simp only [not_or] at ordinary
      obtain ⟨newline, space, tab, quote, backslash⟩ := ordinary
      refine ⟨space, tab, newline, quote, backslash, ?_⟩
      split at goes
      · next carriage =>
          refine ⟨fun _ => of_decide_eq_false goes, ?_⟩
          -- Delimiters have no blanks in them, so none of them starts with a carriage return.
          intro opens
          obtain ⟨first, opening, same⟩ := List.exists_cons_of_ne_nil d.opening_ne_nil
          rw [same, List.cons_prefix_cons] at opens
          have letter := (plain first (by simp [same])).1
          rw [opens.1, carriage] at letter
          cases letter
      · next carriage =>
          refine ⟨fun same => absurd same carriage, ?_⟩
          rw [← List.isPrefixOf_iff_prefix, goes]
          exact Bool.false_ne_true

theorem goes_of_plain {content : String}
    (closed : Text.after? d.opening (c :: rest) = none)
    (text : (plain d c rest).kind = .text content) : endsText d.opening (c :: rest) = false := by
  have apart : d.opening.isPrefixOf (c :: rest) = false := by
    by_contra opens
    obtain ⟨after, whole⟩ := List.isPrefixOf_iff_prefix.mp (eq_true_of_ne_false opens)
    rw [← whole, Text.after?_append] at closed
    cases closed
  unfold plain at text
  grind [endsText, isInlineSpace]

theorem isWritten_text (plainly : d.IsPlain) (goes : endsText d.opening (c :: rest) = false) :
    TokenKind.IsWritten d (.text (String.ofList (c :: (textRun d.opening rest).1)))
      (c :: (textRun d.opening rest).1) (textRun d.opening rest).2 := by
  have run : textRun d.opening (c :: rest) =
      (c :: (textRun d.opening rest).1, (textRun d.opening rest).2) := by
    rw [textRun, if_neg (by simp [goes])]
  refine .text (by simp) ?_
  intro front x back same
  have inside := goes_of_textRun ((congrArg Prod.fst run).trans same)
  rw [run] at inside
  exact ordinary_of_goes plainly inside

theorem isWritten_blanks (inline : isInlineSpace c = true) (rest after : List Char) :
    TokenKind.IsWritten d (.whitespace (String.ofList (c :: rest.takeWhile isInlineSpace)))
      (c :: rest.takeWhile isInlineSpace) after := by
  have each (x : Char) (blank : isInlineSpace x = true) : x = ' ' ∨ x = '\t' := by
    simpa [isInlineSpace] using blank
  refine .whitespace (by simp) ?_
  intro x member
  obtain rfl | later := List.mem_cons.mp member
  · exact each x inline
  · exact each x (List.all_eq_true.mp List.all_takeWhile x later)

theorem isWritten_plain (plainly : d.IsPlain)
    (closed : Text.after? d.opening (c :: rest) = none) :
    (plain d c rest).kind.IsWritten d (plain d c rest).raw (plain d c rest).rest := by
  cases goes : endsText d.opening (c :: rest) with
  | false =>
      rw [plain_of_goes goes]
      exact isWritten_text plainly goes
  | true =>
      obtain inline | rfl | rfl | rfl | ⟨more, rfl, rfl⟩ := endsText_cases goes closed
      · rw [plain_of_inline inline]
        exact isWritten_blanks inline rest _
      · exact .newline .lf
      · exact .special .quote
      · exact .special .backslash
      · exact .newline .crlf

theorem delimiters_plain (d : Delimiters) (c : Char) (rest : List Char) :
    (plain d c rest).delimiters = d := by
  unfold plain
  dsimp only
  repeat' split
  all_goals rfl

theorem kind_plain_ne_delimiters (d : Delimiters) (c : Char) (rest : List Char)
    (opening closing : String) : (plain d c rest).kind ≠ .delimiters opening closing := by
  simp only [plain]
  repeat' split
  all_goals simp

theorem isRead_of_ahead (plainly : d.IsPlain) (read : ahead d c rest = .ok l) : IsRead d l := by
  unfold ahead at read
  split at read
  · exact isRead_of_ofTag read
  · next closed =>
      cases read
      exact .of_kept (isWritten_plain plainly closed) (delimiters_plain d c rest)
        (kind_plain_ne_delimiters d c rest)

theorem kind_ahead_ne_eof (plainly : d.IsPlain) (read : ahead d c rest = .ok l) :
    l.kind ≠ .eof := by
  intro eof
  have written := (isRead_of_ahead plainly read).written
  have filled := (append_of_ahead read).2
  rw [eof] at written
  generalize l.raw = raw, l.rest = more at written filled
  cases written
  exact filled rfl

theorem closed_of_run (plainly : d.IsPlain) (read : ahead d c rest = .ok l) {content : String}
    (run : l.kind = .text content ∨ l.kind = .whitespace content) :
    Text.after? d.opening (c :: rest) = none := by
  cases opens : Text.after? d.opening (c :: rest) with
  | none => rfl
  | some after =>
      have written := (isRead_of_ahead plainly read).written
      have whole := (append_of_ahead read).1
      have starts : d.opening <+: l.raw ++ l.rest :=
        ⟨after, by rw [whole, Text.append_of_after? opens]⟩
      obtain ⟨first, opening, same⟩ := List.exists_cons_of_ne_nil d.opening_ne_nil
      generalize l.raw = raw, l.rest = more at written starts
      obtain text | whitespace := run
      · rw [text] at written
        cases written with
        | text filled each =>
            obtain ⟨x, back, rfl⟩ := List.exists_cons_of_ne_nil filled
            exact absurd starts (each [] x back rfl).2.2.2.2.2.2
      · rw [whitespace] at written
        cases written with
        | whitespace filled each =>
            obtain ⟨x, back, rfl⟩ := List.exists_cons_of_ne_nil filled
            rw [same, List.cons_append, List.cons_prefix_cons] at starts
            have letter := (plainly first (by simp [same])).1
            obtain space | tab := each x (by simp)
            · rw [starts.1, space] at letter
              cases letter
            · rw [starts.1, tab] at letter
              cases letter

theorem ahead_of_kind_text (plainly : d.IsPlain) (read : ahead d c rest = .ok l) {content : String}
    (text : l.kind = .text content) :
    endsText d.opening (c :: rest) = false ∧ endsText d.opening l.rest = true ∧
      l.delimiters = d := by
  have closed := closed_of_run plainly read (.inl text)
  simp only [ahead, closed, Except.ok.injEq] at read
  subst read
  have goes := goes_of_plain closed text
  refine ⟨goes, ?_, delimiters_plain d c rest⟩
  rw [plain_of_goes goes]
  exact ends_of_textRun d.opening rest

theorem ahead_of_kind_whitespace (plainly : d.IsPlain) (read : ahead d c rest = .ok l)
    {content : String} (whitespace : l.kind = .whitespace content) :
    isInlineSpace c = true ∧ startsBlank l.rest = false ∧ l.delimiters = d := by
  have closed := closed_of_run plainly read (.inr whitespace)
  simp only [ahead, closed, Except.ok.injEq] at read
  subst read
  have inline : isInlineSpace c = true := by
    unfold plain at whitespace
    repeat' split at whitespace
    all_goals first | assumption | cases whitespace
  refine ⟨inline, ?_, delimiters_plain d c rest⟩
  rw [plain_of_inline inline]
  cases left : rest.dropWhile isInlineSpace with
  | nil => rfl
  | cons x more =>
      have stops := List.head?_dropWhile_not isInlineSpace rest
      rw [left] at stops
      simpa [startsBlank] using stops

variable {place : Cursor → Position} {cursor : Cursor} {tokens before after : List Token}
  {token next : Token}

/-- Tokens are the lexeme ahead and the tokens of what follows it, until the text ends. -/
theorem tokens_cases (read : Lexeme.tokens place d cursor cs = .ok tokens) :
    (cs = [] ∧ tokens = [⟨.eof, place cursor, ""⟩]) ∨
      ∃ c rest l later, cs = c :: rest ∧ ahead d c rest = .ok l ∧
        Lexeme.tokens place l.delimiters (cursor.advance l.raw) l.rest = .ok later ∧
        tokens = ⟨l.kind, place cursor, String.ofList l.raw⟩ :: later := by
  cases cs with
  | nil =>
      rw [Lexeme.tokens] at read
      exact .inl ⟨rfl, (Except.ok.inj read).symm⟩
  | cons c rest =>
      rw [Lexeme.tokens] at read
      split at read
      · cases read
      · next l found =>
          split at read
          · cases read
          · next later further =>
              exact .inr ⟨c, rest, l, later, rfl, found, further, (Except.ok.inj read).symm⟩

theorem tokens_lossless (plainly : d.IsPlain)
    (read : Lexeme.tokens place d cursor cs = .ok tokens) :
    chars tokens = cs ∧ ∃ body position, tokens = body ++ [⟨.eof, position, ""⟩] ∧
      ∀ token ∈ body, token.kind ≠ .eof := by
  fun_induction Lexeme.tokens place d cursor cs generalizing tokens with
  | case1 d cursor =>
      cases read
      exact ⟨rfl, [], place cursor, rfl, by simp⟩
  | case2 => cases read
  | case3 => cases read
  | case4 d cursor c rest l ahead later more ih =>
      cases read
      have still := (isRead_of_ahead plainly ahead).plain plainly
      obtain ⟨whole, body, position, rfl, inside⟩ := ih still more
      refine ⟨?_, ⟨l.kind, place cursor, String.ofList l.raw⟩ :: body, position, rfl, ?_⟩
      · rw [chars_cons, whole, String.toList_ofList, (append_of_ahead ahead).1]
      · exact List.forall_mem_cons.mpr ⟨kind_ahead_ne_eof plainly ahead, inside⟩

theorem tokens_behind (plainly : d.IsPlain) (filled : after ≠ [])
    (read : Lexeme.tokens place d cursor cs = .ok (before ++ after)) :
    ∃ inside, inside.texts = Token.inForce d.texts before ∧ inside.IsPlain ∧
      Lexeme.tokens place inside (cursor.advance (chars before)) (chars after) = .ok after := by
  induction before generalizing d cursor cs with
  | nil =>
      have whole := (tokens_lossless plainly read).1
      exact ⟨d, rfl, plainly, by rw [← whole] at read; exact read⟩
  | cons token before ih =>
      obtain ⟨-, same⟩ | ⟨c, rest, l, later, -, found, further, same⟩ := tokens_cases read
      · simp [filled] at same
      · obtain ⟨rfl, rfl⟩ := List.cons.inj same
        have here := isRead_of_ahead plainly found
        obtain ⟨inside, delimiters, plain, reads⟩ := ih (here.plain plainly) further
        refine ⟨inside, ?_, plain, ?_⟩
        · rw [delimiters, here.inForce (place cursor) (String.ofList l.raw)]
          rfl
        · rwa [chars_cons, String.toList_ofList, Cursor.advance, List.foldl_append]

theorem apart_of_ahead {x : Char} {more : List Char} {other : Lexeme} (plainly : d.IsPlain)
    (read : ahead d c rest = .ok l) (left : l.rest = x :: more)
    (further : ahead l.delimiters x more = .ok other) :
    (∀ content more, l.kind = .text content → other.kind ≠ .text more) ∧
      ∀ content more, l.kind = .whitespace content → other.kind ≠ .whitespace more := by
  refine ⟨?_, ?_⟩
  · intro content more text again
    obtain ⟨-, ends, kept⟩ := ahead_of_kind_text plainly read text
    rw [kept] at further
    have goes := (ahead_of_kind_text plainly further again).1
    rw [left, goes] at ends
    cases ends
  · intro content more whitespace again
    obtain ⟨-, stops, kept⟩ := ahead_of_kind_whitespace plainly read whitespace
    rw [kept] at further
    have inline := (ahead_of_kind_whitespace plainly further again).1
    rw [left, startsBlank, List.head?_cons, Option.any_some, inline] at stops
    cases stops

/-- The first of some tokens is written as its kind says, and is apart from the one behind it. -/
theorem tokens_written (plainly : d.IsPlain)
    (read : Lexeme.tokens place d cursor cs = .ok (token :: after)) :
    token.kind.IsWritten d token.raw.toList (chars after) ∧
      ∀ next ∈ after.head?, (∀ content more, token.kind = .text content → next.kind ≠ .text more) ∧
        ∀ content more, token.kind = .whitespace content → next.kind ≠ .whitespace more := by
  obtain ⟨-, same⟩ | ⟨c, rest, l, later, rfl, found, further, same⟩ := tokens_cases read
  · obtain ⟨rfl, rfl⟩ := List.cons.inj same
    exact ⟨.eof, by simp⟩
  · obtain ⟨rfl, rfl⟩ := List.cons.inj same
    have here := isRead_of_ahead plainly found
    have whole := (tokens_lossless (here.plain plainly) further).1
    refine ⟨?_, ?_⟩
    · rw [String.toList_ofList, whole]
      exact here.written
    · intro next member
      obtain ⟨more, rfl⟩ := List.head?_eq_some_iff.mp (Option.mem_def.mp member)
      obtain ⟨-, ending⟩ | ⟨x, left, other, last, behind, following, -, second⟩ :=
        tokens_cases further
      · rw [(List.cons.inj ending).1]
        exact ⟨fun _ _ _ => TokenKind.noConfusion, fun _ _ _ => TokenKind.noConfusion⟩
      · rw [(List.cons.inj second).1]
        exact apart_of_ahead plainly found behind following

end Lexeme

open Lexeme

theorem exists_isWritten {template source : String} {tokens : List Token}
    (read : tokenize template source = .ok tokens) {token : Token} (member : token ∈ tokens) :
    ∃ (d : Delimiters) (rest : List Char), token.kind.IsWritten d token.raw.toList rest := by
  obtain ⟨before, after, rfl⟩ := List.append_of_mem member
  obtain ⟨d, -, plain, reads⟩ := tokens_behind Delimiters.isPlain_standard (by simp) read
  exact ⟨d, chars after, (tokens_written plain reads).1⟩

/-- Every token is written as its kind says with the delimiters in force at it, and neither text nor
whitespace is cut into several tokens. -/
theorem tokenize_written {template source : String} {tokens : List Token}
    (read : tokenize template source = .ok tokens) :
    (∀ before token after, tokens = before ++ token :: after →
      ∃ d : Delimiters, d.texts = Token.inForce Delimiters.standard.texts before ∧ d.IsPlain ∧
        token.kind.IsWritten d token.raw.toList (chars after)) ∧
      tokens.IsChain fun token next =>
        (∀ content more, token.kind = .text content → next.kind ≠ .text more) ∧
          ∀ content more, token.kind = .whitespace content → next.kind ≠ .whitespace more := by
  refine ⟨?_, ?_⟩
  · rintro before token after rfl
    obtain ⟨d, inForce, plain, reads⟩ := tokens_behind Delimiters.isPlain_standard (by simp) read
    exact ⟨d, inForce, plain, (tokens_written plain reads).1⟩
  · refine List.isChain_iff_forall_rel_of_append_cons_cons.mpr ?_
    rintro token next before after rfl
    obtain ⟨d, -, plain, reads⟩ := tokens_behind Delimiters.isPlain_standard (by simp) read
    exact (tokens_written plain reads).2 next rfl

theorem tokenize_written_changed :
    ∃ before token after,
      tokenize "page" "{{=< >=}}a<# b>" = .ok (before ++ token :: after) ∧
        token.kind = .tag .openSection "b" ∧
        ∃ d : Delimiters, d.texts = ("<", ">") ∧ d.IsPlain ∧
          token.kind.IsWritten d "<# b>".toList (chars after) := by
  let place (column : Nat) : Position := ⟨"page", 1, column, "{{=< >=}}a<# b>"⟩
  let before : List Token :=
    [⟨.delimiters "<" ">", place 1, "{{=< >=}}"⟩, ⟨.text "a", place 10, "a"⟩]
  let token : Token := ⟨.tag .openSection "b", place 11, "<# b>"⟩
  let after : List Token := [⟨.eof, place 16, ""⟩]
  have read : tokenize "page" "{{=< >=}}a<# b>" =
      .ok (before ++ token :: after) := by
    decide +kernel
  exact ⟨before, token, after, read, rfl, (tokenize_written read).1 before token after rfl⟩

end Stencil
