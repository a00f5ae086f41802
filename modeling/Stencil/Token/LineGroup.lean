import Stencil.Token.Basic

/-!
Groups of tokens by lines. A structural tag that has its line to itself, but for whitespace, takes
the whitespace and the line ending with it. Tokens are classified in order as they arrive, with at
most five of them undecided.
-/

namespace Stencil

inductive Role where
  | normal
  | ignore
  /-- Whitespace before a standalone tag. -/
  | indent
  | eof
  deriving DecidableEq, Repr

structure LineToken where
  token : Token
  role : Role
  deriving DecidableEq, Repr

def LineToken.of (role : Role) (token : Token) : LineToken :=
  ⟨token, if token.isEof then .eof else role⟩

/-- Tokens that were classified together: a standalone line or a single token. -/
abbrev LineGroup := List LineToken

/-- Tokens that are not yet decided, and whether a line starts with them. -/
structure LineClassifier where
  pending : List Token
  atLineStart : Bool
  deriving DecidableEq, Repr

namespace LineClassifier

def start : LineClassifier := ⟨[], true⟩

def maxPending : Nat := 5

/-- The roles for the first tokens of a line, with whether a line starts after them. -/
def lineRoles? : List Token → Option (List Role × Bool)
  | first :: second :: rest =>
      if !(first.isNewline || first.isWhitespace) && second.isStandalone then
        some ([.normal, .normal], false)
      else if first.isStandalone && second.endsLine then some ([.normal, .ignore], true)
      else
        match rest with
        | [] => none
        | third :: more =>
            if first.isStandalone && second.isWhitespace && third.endsLine then
              some ([.normal, .ignore, .ignore], true)
            else if first.isWhitespace && second.isStandalone && third.endsLine then
              some ([.indent, .normal, .ignore], true)
            else
              match more with
              | [] => none
              | fourth :: _ =>
                  if first.isWhitespace && second.isStandalone && third.isWhitespace &&
                      fourth.endsLine then
                    some ([.indent, .normal, .ignore, .ignore], true)
                  else none
  | _ => none

/-- The next group that can be decided, given whether a line starts, and whether a line starts
after it. -/
def group? (atLineStart : Bool) (tokens : List Token) : Option (LineGroup × Bool) :=
  if atLineStart then
    (lineRoles? tokens).map fun (roles, next) => (List.zipWith LineToken.of roles tokens, next)
  else none

def single (token : Token) : LineGroup := [.of .normal token]

theorem group?_length {atLineStart next : Bool} {tokens : List Token} {group : LineGroup}
    (found : group? atLineStart tokens = some (group, next)) : 2 ≤ group.length := by
  simp only [group?] at found
  split at found
  · simp only [Option.map_eq_some_iff, Prod.exists, Prod.mk.injEq] at found
    obtain ⟨roles, after, decided, rfl, rfl⟩ := found
    simp only [lineRoles?] at decided
    repeat' split at decided
    all_goals simp only [Option.some.injEq, Prod.mk.injEq, reduceCtorEq] at decided
    all_goals
      obtain ⟨rfl, rfl⟩ := decided
      simp [List.zipWith]
  · simp at found

def drain (atLineStart : Bool) (tokens : List Token) : List LineGroup :=
  match tokens with
  | [] => []
  | [last] => [single last]
  | first :: second :: rest =>
      match _decided : group? atLineStart (first :: second :: rest) with
      | some (group, next) => group :: drain next ((first :: second :: rest).drop group.length)
      | none => single first :: drain first.endsLine (second :: rest)
  termination_by tokens.length
  decreasing_by
    · have := group?_length _decided
      simp only [List.length_drop, List.length_cons]
      omega
    · simp

/-- Takes in one token and gives the groups decided by it: at most one, except that the end of a
template decides everything. -/
def push (state : LineClassifier) (token : Token) : List LineGroup × LineClassifier :=
  let pending := state.pending ++ [token]
  if token.isEof then (drain state.atLineStart pending, start)
  else
    match group? state.atLineStart pending with
    | some (group, next) => ([group], ⟨pending.drop group.length, next⟩)
    | none =>
        match pending with
        | first :: rest =>
            if maxPending < pending.length then ([single first], ⟨rest, first.endsLine⟩)
            else ([], ⟨pending, state.atLineStart⟩)
        | [] => ([], state)

def pushAll (state : LineClassifier) : List Token → List LineGroup × LineClassifier
  | [] => ([], state)
  | token :: rest =>
      let (groups, next) := state.push token
      let (more, last) := next.pushAll rest
      (groups ++ more, last)

def groupsOf (tokens : List Token) : List LineGroup := (start.pushAll tokens).1

end LineClassifier

end Stencil
