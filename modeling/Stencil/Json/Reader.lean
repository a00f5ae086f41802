import Stencil.Json.Written
import Stencil.Text.Lines

/-!
Reading JSON text. A reader takes the characters ahead and gives its result with the characters
after it, or nothing when the text is malformed. What is well formed need not have a value.
-/

namespace Stencil.Json.Reader

def maxInt : Nat := 0xFFFFFFFFFFFFFFFF

def minIntMagnitude : Nat := 0x8000000000000000

def isSpace (c : Char) : Bool := c = ' ' || c = '\n' || c = '\t' || c = '\r'

def skipSpace (cs : List Char) : List Char := cs.dropWhile isSpace

def digitValue (c : Char) : Nat := c.toNat - '0'.toNat

def digits (cs : List Char) : List Nat × List Char :=
  ((cs.takeWhile Char.isDigit).map digitValue, cs.dropWhile Char.isDigit)

/-- Appends digits to a significand while it stays within 64 bits; also gives the digits left. -/
def absorb (significand : Nat) : List Nat → Nat × List Nat
  | [] => (significand, [])
  | d :: rest =>
      if significand * 10 + d ≤ maxInt then absorb (significand * 10 + d) rest
      else (significand, d :: rest)

def fraction? : List Char → Option (Option (List Nat) × List Char)
  | '.' :: rest =>
      match digits rest with
      | ([], _) => none
      | (found, after) => some (some found, after)
  | cs => some (none, cs)

def exponent? : List Char → Option (Option Int × List Char)
  | c :: rest =>
      if c = 'e' ∨ c = 'E' then
        let (negative, unsigned) := match rest with
          | '+' :: more => (false, more)
          | '-' :: more => (true, more)
          | more => (false, more)
        match digits unsigned with
        | ([], _) => none
        | (found, after) =>
            let value : Int := (found.foldl (fun n d => n * 10 + d) 0 : Nat)
            some (some (if negative then -value else value), after)
      else some (none, c :: rest)
  | [] => some (none, [])

def unsigned? (negative : Bool) (cs : List Char) : Option (Option Json × List Char) := do
  let (whole, afterWhole) := digits cs
  if whole.isEmpty ∨ (whole.head? = some 0 ∧ 1 < whole.length) then none
  let (fraction, afterFraction) ← fraction? afterWhole
  let (exponent, rest) ← exponent? afterFraction
  let (significand, dropped) := absorb 0 whole
  let isInt := dropped.isEmpty ∧ fraction.isNone ∧ exponent.isNone
  if isInt ∧ !negative then return (some (int significand), rest)
  if isInt ∧ significand ≠ 0 ∧ significand ≤ minIntMagnitude then
    return (some (int (-significand)), rest)
  let fractionDigits := fraction.getD []
  let (full, unread) := absorb significand fractionDigits
  let place : Int := dropped.length - (fractionDigits.length - unread.length : Nat)
  let magnitude? := Number.Magnitude.ofDecimal? full (place + exponent.getD 0)
  return (magnitude?.map fun magnitude => double ⟨negative, magnitude⟩, rest)

def number? : List Char → Option (Option Json × List Char)
  | '-' :: rest => unsigned? true rest
  | cs => unsigned? false cs

def hexDigit? (c : Char) : Option Nat :=
  if '0' ≤ c ∧ c ≤ '9' then some (c.toNat - '0'.toNat)
  else if 'a' ≤ c ∧ c ≤ 'f' then some (c.toNat - 'a'.toNat + 10)
  else if 'A' ≤ c ∧ c ≤ 'F' then some (c.toNat - 'A'.toNat + 10)
  else none

def codeUnit? : List Char → Option (Nat × List Char)
  | a :: b :: c :: d :: rest => do
      let a ← hexDigit? a
      let b ← hexDigit? b
      let c ← hexDigit? c
      let d ← hexDigit? d
      return (((a * 16 + b) * 16 + c) * 16 + d, rest)
  | _ => none

def lowSurrogate? (cs : List Char) : Option (Nat × List Char) := do
  let escaped ← Text.after? ['\\', 'u'] cs
  let (unit, rest) ← codeUnit? escaped
  if 0xDC00 ≤ unit ∧ unit < 0xE000 then some (unit - 0xDC00, rest) else none

/-- The character after `\u`: one code unit, or a surrogate pair in two escapes. Half a pair is no
character. -/
def unicodeEscape? (cs : List Char) : Option (Option Char × List Char) := do
  let (unit, rest) ← codeUnit? cs
  if 0xD800 ≤ unit ∧ unit < 0xDC00 then
    match lowSurrogate? rest with
    | some (low, after) =>
        return (some (Char.ofNat (0x10000 + (unit - 0xD800) * 0x400 + low)), after)
    | none => return (none, rest)
  else if 0xDC00 ≤ unit ∧ unit < 0xE000 then return (none, rest)
  else return (some (Char.ofNat unit), rest)

def escape? : List Char → Option (Option Char × List Char)
  | '"' :: rest => some (some '"', rest)
  | '\\' :: rest => some (some '\\', rest)
  | '/' :: rest => some (some '/', rest)
  | 'b' :: rest => some (some '\x08', rest)
  | 'f' :: rest => some (some '\x0c', rest)
  | 'n' :: rest => some (some '\n', rest)
  | 'r' :: rest => some (some '\r', rest)
  | 't' :: rest => some (some '\t', rest)
  | 'u' :: rest => unicodeEscape? rest
  | _ => none

theorem length_of_codeUnit? {cs rest : List Char} {unit : Nat}
    (read : codeUnit? cs = some (unit, rest)) : rest.length < cs.length := by
  unfold codeUnit? at read
  split at read
  · simp only [bind, Option.bind_eq_some_iff, pure, Option.some.injEq, Prod.mk.injEq] at read
    obtain ⟨_, _, _, _, _, _, _, _, _, rfl⟩ := read
    simp only [List.length_cons]
    omega
  · simp at read

theorem length_of_after? {mark cs rest : List Char}
    (found : Text.after? mark cs = some rest) : rest.length ≤ cs.length := by
  rw [← Text.append_of_after? found, List.length_append]
  omega

theorem length_of_lowSurrogate? {cs rest : List Char} {low : Nat}
    (read : lowSurrogate? cs = some (low, rest)) : rest.length < cs.length := by
  simp only [lowSurrogate?, bind, Option.bind_eq_some_iff, Prod.exists] at read
  obtain ⟨escaped, marked, unit, after, second, read⟩ := read
  have := length_of_after? marked
  have := length_of_codeUnit? second
  split at read
  · simp only [Option.some.injEq, Prod.mk.injEq] at read
    obtain ⟨_, rfl⟩ := read
    omega
  · simp at read

theorem length_of_unicodeEscape? {cs rest : List Char} {c? : Option Char}
    (read : unicodeEscape? cs = some (c?, rest)) : rest.length < cs.length := by
  simp only [unicodeEscape?, bind, Option.bind_eq_some_iff, Prod.exists] at read
  obtain ⟨unit, after, first, read⟩ := read
  have shorter := length_of_codeUnit? first
  split at read
  · split at read
    · next low final second =>
        have := length_of_lowSurrogate? second
        simp only [pure, Option.some.injEq, Prod.mk.injEq] at read
        obtain ⟨_, rfl⟩ := read
        omega
    · simp only [pure, Option.some.injEq, Prod.mk.injEq] at read
      obtain ⟨_, rfl⟩ := read
      exact shorter
  · split at read <;>
      · simp only [pure, Option.some.injEq, Prod.mk.injEq] at read
        obtain ⟨_, rfl⟩ := read
        exact shorter

theorem length_of_escape? {cs rest : List Char} {c? : Option Char}
    (read : escape? cs = some (c?, rest)) : rest.length < cs.length := by
  unfold escape? at read
  split at read
  all_goals try
    simp only [Option.some.injEq, Prod.mk.injEq] at read
    obtain ⟨_, rfl⟩ := read
    simp
  · have := length_of_unicodeEscape? read
    simp only [List.length_cons]
    omega
  · simp at read

/-- The rest of a string after its opening quote. `done` holds the characters read, last first, and
`whole` tells that no half of one has been. -/
def string? (whole : Bool) (done : List Char) (cs : List Char) :
    Option (Option String × List Char) :=
  match cs with
  | [] => none
  | '"' :: rest => some (if whole then some (String.ofList done.reverse) else none, rest)
  | '\\' :: rest =>
      match _read : escape? rest with
      | none => none
      | some (some c, after) => string? whole (c :: done) after
      | some (none, after) => string? false done after
  | c :: rest => if c.toNat < 0x20 then none else string? whole (c :: done) rest
  termination_by cs.length
  decreasing_by
    · have := length_of_escape? _read
      simp only [List.length_cons]
      omega
    · have := length_of_escape? _read
      simp only [List.length_cons]
      omega
    · simp

def items? {α : Type} (item? : List Char → Option (α × List Char)) (close : Char) :
    Nat → List α → List Char → Option (List α × List Char)
  | 0, _, _ => none
  | room + 1, done, cs =>
      match item? cs with
      | none => none
      | some (item, after) =>
          match skipSpace after with
          | [] => none
          | c :: rest =>
              if c = close then some ((item :: done).reverse, rest)
              else if c = ',' then items? item? close room (item :: done) rest
              else none

def list? {α : Type} (item? : List Char → Option (α × List Char)) (close : Char) (room : Nat)
    (cs : List Char) : Option (List α × List Char) :=
  match skipSpace cs with
  | c :: rest => if c = close then some ([], rest) else items? item? close room [] (c :: rest)
  | [] => none

def name? (cs : List Char) : Option (Option String × List Char) := do
  let opened ← Text.after? ['"'] (skipSpace cs)
  let (name, rest) ← string? true [] opened
  return (name, ← Text.after? [':'] (skipSpace rest))

def member? (value? : List Char → Option (Written × List Char)) (cs : List Char) :
    Option ((Option String × Written) × List Char) := do
  let (name, rest) ← name? cs
  let (value, rest) ← value? rest
  return ((name, value), rest)

def scalar? : List Char → Option (Option Json × List Char)
  | '"' :: rest => (string? true [] rest).map fun (text?, after) => (text?.map string, after)
  | 'n' :: rest => (Text.after? ['u', 'l', 'l'] rest).map (some null, ·)
  | 't' :: rest => (Text.after? ['r', 'u', 'e'] rest).map (some (bool true), ·)
  | 'f' :: rest => (Text.after? ['a', 'l', 's', 'e'] rest).map (some (bool false), ·)
  | cs => number? cs

/-- What follows a value of any depth, in at most `room` steps. `due` tells that a value comes next,
and `closers` holds the characters that close what is open, innermost first. -/
def skip? : Nat → Bool → List Char → List Char → Option (List Char)
  | 0, _, _, _ => none
  | room + 1, true, closers, cs =>
      match skipSpace cs with
      | '[' :: rest =>
          match skipSpace rest with
          | ']' :: after => skip? room false closers after
          | items => skip? room true (']' :: closers) items
      | '\x7b' :: rest =>
          match skipSpace rest with
          | '\x7d' :: after => skip? room false closers after
          | members => do
              let (_, after) ← name? members
              skip? room true ('\x7d' :: closers) after
      | ahead => do
          let (_, after) ← scalar? ahead
          skip? room false closers after
  | _ + 1, false, [], cs => some cs
  | room + 1, false, close :: closers, cs =>
      match skipSpace cs with
      | [] => none
      | c :: rest =>
          if c = close then skip? room false closers rest
          else if c ≠ ',' then none
          else if close = ']' then skip? room true (close :: closers) rest
          else do
            let (_, after) ← name? rest
            skip? room true (close :: closers) after

/-- A value of which `levels` levels of arrays and objects are kept. `room` bounds the parts of each
and the steps to pass over the others. -/
def value? (room : Nat) : Nat → List Char → Option (Written × List Char)
  | 0, cs =>
      match scalar? (skipSpace cs) with
      | some (value?, after) => some (.ofScalar? value?, after)
      | none => (skip? room true [] cs).map (.valueless, ·)
  | levels + 1, cs =>
      match skipSpace cs with
      | '[' :: rest =>
          (list? (value? room levels) ']' room rest).map fun (items, after) =>
            (.array items, after)
      | '\x7b' :: rest =>
          (list? (member? (value? room levels)) '\x7d' room rest).map fun (members, after) =>
            (.ofMembers members, after)
      | rest => (scalar? rest).map fun (value?, after) => (.ofScalar? value?, after)

end Stencil.Json.Reader

namespace Stencil.Json

def maxDepth : Nat := 127

def readWritten? (depth : Nat) (text : String) : Option Written :=
  let cs := text.toList
  match Reader.value? (cs.length + 1) depth cs with
  | some (written, rest) => if (Reader.skipSpace rest).isEmpty then some written else none
  | none => none

def read? (text : String) : Option Json := (readWritten? maxDepth text).bind Written.value?

end Stencil.Json
