import Stencil.Text.Blank
import Stencil.Text.Lines
import Stencil.Token.Basic

/-!
Lexemes: the first piece of the text ahead, as a token kind and the text after it. Main statement:
a lexeme and what follows it are the text ahead, and a lexeme is never empty.
-/

namespace Stencil

inductive TagFault where
  | unterminated (expected : String)
  | emptyName
  | invalidName (name : String)
  | invalidDelimiters (content : String)
  | equalsInDelimiters (content : String)
  deriving DecidableEq, Repr

def TagFault.message : TagFault → String
  | unterminated expected => s!"Unterminated tag, expected '{expected}'"
  | emptyName => "Empty tag name"
  | invalidName name => s!"Invalid tag name: '{name}'"
  | invalidDelimiters content => s!"Invalid delimiter change: '{content}'"
  | equalsInDelimiters content => s!"Delimiters may not contain '=': '{content}'"

/-- The marks around tags. -/
structure Delimiters where
  opening : List Char
  closing : List Char
  opening_ne_nil : opening ≠ []
  closing_ne_nil : closing ≠ []
  deriving DecidableEq

namespace Delimiters

def standard : Delimiters := ⟨['\x7b', '\x7b'], ['\x7d', '\x7d'], by simp, by simp⟩

def ofContent (content : List Char) : Except TagFault Delimiters :=
  match _split : Text.words content with
  | [opening, closing] =>
      if '=' ∈ opening ∨ '=' ∈ closing then
        .error (.equalsInDelimiters (String.ofList (Text.trim content)))
      else
        .ok ⟨opening, closing,
          Text.ne_nil_of_mem_words (show opening ∈ Text.words content by simp [_split]),
          Text.ne_nil_of_mem_words (show closing ∈ Text.words content by simp [_split])⟩
  | _ => .error (.invalidDelimiters (String.ofList (Text.trim content)))

end Delimiters

/-- A piece at the start of the text ahead, with the delimiters in force after it. -/
structure Lexeme where
  kind : TokenKind
  raw : List Char
  rest : List Char
  delimiters : Delimiters

namespace Lexeme

def endsText (opening : List Char) : List Char → Bool
  | [] => true
  | c :: rest =>
      if c = '\n' ∨ c = ' ' ∨ c = '\t' ∨ c = '"' ∨ c = '\\' then true
      else if c = '\r' then rest.head? = some '\n'
      else opening.isPrefixOf (c :: rest)

def textRun (opening : List Char) : List Char → List Char × List Char
  | [] => ([], [])
  | c :: rest =>
      if endsText opening (c :: rest) then ([], c :: rest)
      else
        let (run, after) := textRun opening rest
        (c :: run, after)

def isInlineSpace (c : Char) : Bool := c = ' ' || c = '\t'

def plain (d : Delimiters) (c : Char) (rest : List Char) : Lexeme :=
  if c = '\n' then ⟨.newline .lf, [c], rest, d⟩
  else if c = '\r' ∧ rest.head? = some '\n' then ⟨.newline .crlf, [c, '\n'], rest.drop 1, d⟩
  else if isInlineSpace c then
    let run := c :: rest.takeWhile isInlineSpace
    ⟨.whitespace (String.ofList run), run, rest.dropWhile isInlineSpace, d⟩
  else if c = '"' then ⟨.special .quote, [c], rest, d⟩
  else if c = '\\' then ⟨.special .backslash, [c], rest, d⟩
  else
    let (run, after) := textRun d.opening rest
    ⟨.text (String.ofList (c :: run)), c :: run, after, d⟩

def sigilKind? (c : Char) : Option TagKind :=
  if c = '&' then some .unescaped
  else if c = '#' then some .openSection
  else if c = '^' then some .openInverted
  else if c = '/' then some .close
  else if c = '>' then some .inclusion
  else if c = '<' then some .openParent
  else if c = '$' then some .openBlock
  else none

def nameIn (content : List Char) : Except TagFault String :=
  let name := Text.trim content
  if name.isEmpty then .error .emptyName
  else if name.any Text.isBlank then .error (.invalidName (String.ofList name))
  else .ok (String.ofList name)

def upTo (lead terminator cs : List Char)
    (interpret : List Char → Except TagFault (TokenKind × Delimiters)) :
    Except TagFault Lexeme :=
  match Text.cutAt? terminator cs with
  | none => .error (.unterminated (String.ofList terminator))
  | some (content, rest) => do
      let (kind, delimiters) ← interpret content
      return ⟨kind, lead ++ content ++ terminator, rest, delimiters⟩

def namedTag (d : Delimiters) (kind : TagKind) (content : List Char) :
    Except TagFault (TokenKind × Delimiters) := do
  return (.tag kind (← nameIn content), d)

def commentTag (d : Delimiters) (content : List Char) :
    Except TagFault (TokenKind × Delimiters) :=
  .ok (.comment (String.ofList content), d)

def delimiterTag (content : List Char) : Except TagFault (TokenKind × Delimiters) := do
  let d ← Delimiters.ofContent content
  return (.delimiters (String.ofList d.opening) (String.ofList d.closing), d)

def ofTag (d : Delimiters) (cs : List Char) : Except TagFault Lexeme :=
  match cs with
  | [] => upTo d.opening d.closing [] (namedTag d .escaped)
  | c :: rest =>
      let lead := d.opening ++ [c]
      if d = .standard ∧ c = '\x7b' then
        upTo lead ('\x7d' :: d.closing) rest (namedTag d .unescaped)
      else if c = '!' then upTo lead d.closing rest (commentTag d)
      else if c = '=' then upTo lead ('=' :: d.closing) rest delimiterTag
      else
        match sigilKind? c with
        | some kind => upTo lead d.closing rest (namedTag d kind)
        | none => upTo d.opening d.closing (c :: rest) (namedTag d .escaped)

/-- The lexeme at the start of a nonempty text. -/
def ahead (d : Delimiters) (c : Char) (rest : List Char) : Except TagFault Lexeme :=
  match Text.after? d.opening (c :: rest) with
  | some after => ofTag d after
  | none => .ok (plain d c rest)

theorem sigil_of_sigilKind? {c : Char} {kind : TagKind} (found : sigilKind? c = some kind) :
    kind.sigil = String.singleton c := by
  simp only [sigilKind?] at found
  repeat' split at found
  all_goals simp only [Option.some.injEq, reduceCtorEq] at found
  all_goals subst_vars; rfl

theorem textRun_append (opening cs : List Char) :
    (textRun opening cs).1 ++ (textRun opening cs).2 = cs := by
  induction cs with
  | nil => rfl
  | cons c rest ih =>
      simp only [textRun]
      split
      · rfl
      · simpa using ih

theorem append_of_plain (d : Delimiters) (c : Char) (rest : List Char) :
    (plain d c rest).raw ++ (plain d c rest).rest = c :: rest := by
  simp only [plain]
  repeat' split
  all_goals try simp [List.takeWhile_append_dropWhile, textRun_append]
  next carriage =>
    cases rest with
    | nil => simp at carriage
    | cons next more => simp_all

theorem raw_plain_ne_nil (d : Delimiters) (c : Char) (rest : List Char) :
    (plain d c rest).raw ≠ [] := by
  simp only [plain]
  repeat' split
  all_goals simp

theorem append_of_upTo {lead terminator cs : List Char}
    {interpret : List Char → Except TagFault (TokenKind × Delimiters)} {l : Lexeme}
    (read : upTo lead terminator cs interpret = .ok l) :
    l.raw ++ l.rest = lead ++ cs ∧ (lead ≠ [] → l.raw ≠ []) := by
  simp only [upTo] at read
  split at read
  · simp at read
  · next content rest cut =>
      cases outcome : interpret content with
      | error fault => simp [outcome, bind, Except.bind] at read
      | ok result =>
          simp only [outcome, bind, Except.bind, pure, Except.pure, Except.ok.injEq] at read
          subst read
          have whole := Text.append_of_cutAt? cut
          refine ⟨?_, ?_⟩
          · simp [← whole]
          · intro nonempty
            simp [nonempty]

theorem append_of_ahead {d : Delimiters} {c : Char} {rest : List Char} {l : Lexeme}
    (read : ahead d c rest = .ok l) : l.raw ++ l.rest = c :: rest ∧ l.raw ≠ [] := by
  simp only [ahead] at read
  split at read
  · next after found =>
      have whole := Text.append_of_after? found
      rw [← whole]
      have nonempty := d.opening_ne_nil
      simp only [ofTag] at read
      repeat' split at read
      all_goals
        have parts := append_of_upTo read
        simpa [nonempty] using parts
  · simp only [Except.ok.injEq] at read
    subst read
    exact ⟨append_of_plain d c rest, raw_plain_ne_nil d c rest⟩

theorem length_rest_lt {d : Delimiters} {c : Char} {rest : List Char} {l : Lexeme}
    (read : ahead d c rest = .ok l) : l.rest.length < (c :: rest).length := by
  obtain ⟨whole, nonempty⟩ := append_of_ahead read
  have positive := List.length_pos_iff.mpr nonempty
  rw [← whole, List.length_append]
  omega

end Lexeme

end Stencil
