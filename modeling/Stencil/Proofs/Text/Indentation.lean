import Mathlib.Data.List.Forall2
import Stencil.Text.Lines
import Stencil.Token.Basic

/-!
Output with its lines indented. Main statement: if the indentation stands in front of whatever is
written first on a line, then each line that is not empty stands behind it.
-/

namespace Stencil.Text

/-- A line of some output, and the same line of the indented output. -/
structure IndentedLine (indent line other : List Char) : Prop where
  filled : line ≠ [] → other = indent ++ line
  empty : line = [] → other = [] ∨ other = indent

/-- Some output, and the same with the indentation in front of what is written first on each line.
The flags tell whether nothing is written on a line before the output and after it. -/
inductive Indents (indent : List Char) : Bool → List Char → List Char → Bool → Prop where
  | nil {atStart : Bool} : Indents indent atStart [] [] atStart
  | write {atStart last : Bool} {text output other : List Char} : '\n' ∉ text →
      Indents indent false output other last →
      Indents indent atStart (text ++ output)
        ((if atStart then indent else []) ++ (text ++ other)) last
  | newline {atStart last : Bool} {output other : List Char} (ending : LineEnding) :
      Indents indent true output other last →
      Indents indent atStart (ending.text.toList ++ output) (ending.text.toList ++ other) last

variable {indent text output other line first cs : List Char} {rest : List (List Char)}
  {atStart middle last : Bool}

namespace Indents

theorem append {more otherMore : List Char} (front : Indents indent atStart output other middle)
    (back : Indents indent middle more otherMore last) :
    Indents indent atStart (output ++ more) (other ++ otherMore) last := by
  induction front with
  | nil => exact back
  | write inline _ ih =>
      rw [List.append_assoc, List.append_assoc, List.append_assoc]
      exact .write inline (ih back)
  | newline ending _ ih =>
      rw [List.append_assoc, List.append_assoc]
      exact .newline ending (ih back)

theorem one_text (inline : '\n' ∉ text) :
    Indents indent atStart text ((if atStart then indent else []) ++ text) false := by
  have written : Indents indent atStart (text ++ [])
      ((if atStart then indent else []) ++ (text ++ [])) false := .write inline .nil
  rwa [List.append_nil] at written

end Indents

theorem lines_newline (cs : List Char) : lines ('\n' :: cs) = [] :: lines cs := rfl

theorem lines_append (inline : '\n' ∉ text) (cut : lines cs = first :: rest) :
    lines (text ++ cs) = (text ++ first) :: rest := by
  induction text with
  | nil => exact cut
  | cons c text ih =>
      rw [List.mem_cons, not_or] at inline
      obtain ⟨here, further⟩ := inline
      have later := ih further
      unfold lines at later ⊢
      rw [List.cons_append, splitOn, if_neg (Ne.symm here), later]
      rfl

def IndentedPiece (indent line other : List Char) : Prop :=
  other = indent ++ line ∨ other = line ∧ (line = [] ∨ line = ['\r'])

theorem dropReturn_of_ne (ordinary : line.getLast? ≠ some '\r') : dropReturn line = line :=
  if_neg ordinary

theorem dropReturn_append (filled : line ≠ []) :
    dropReturn (indent ++ line) = indent ++ dropReturn line := by
  have last : (indent ++ line).getLast? = line.getLast? := by
    rw [List.getLast?_append, List.getLast?_eq_getLast_of_ne_nil filled]
    rfl
  unfold dropReturn
  rw [last]
  split
  · exact List.dropLast_append_of_ne_nil filled
  · rfl

theorem IndentedPiece.indentedLine (plain : '\r' ∉ indent)
    (piece : IndentedPiece indent line other) :
    IndentedLine indent (dropReturn line) (dropReturn other) := by
  have kept : dropReturn indent = indent := by
    refine dropReturn_of_ne ?_
    intro ends
    exact plain (List.mem_of_getLast? ends)
  obtain rfl | ⟨rfl, rfl | rfl⟩ := piece
  · by_cases filled : line = []
    · subst filled
      rw [List.append_nil, kept]
      exact ⟨fun filled => absurd rfl filled, fun _ => .inr rfl⟩
    · rw [dropReturn_append filled]
      refine ⟨fun _ => rfl, ?_⟩
      intro empty
      rw [empty, List.append_nil]
      exact .inr rfl
  · exact ⟨fun filled => absurd rfl filled, fun _ => .inl rfl⟩
  · exact ⟨fun filled => absurd rfl filled, fun _ => .inl rfl⟩

theorem Indents.exists_pieces (inline : '\n' ∉ indent)
    (indents : Indents indent atStart output other last) :
    ∃ first rest otherFirst otherRest, lines output = first :: rest ∧
      lines other = otherFirst :: otherRest ∧
      (if atStart then IndentedPiece indent first otherFirst else otherFirst = first) ∧
      List.Forall₂ (IndentedPiece indent) rest otherRest := by
  induction indents with
  | @nil atStart =>
      refine ⟨[], [], [], [], rfl, rfl, ?_, .nil⟩
      cases atStart
      · rfl
      · exact .inr ⟨rfl, .inl rfl⟩
  | @write atStart _ text output other plain _ ih =>
      obtain ⟨first, rest, otherFirst, otherRest, cut, otherCut, here, later⟩ := ih
      obtain rfl : otherFirst = first := here
      have written := lines_append plain otherCut
      cases atStart with
      | false => exact ⟨_, _, _, _, lines_append plain cut, written, rfl, later⟩
      | true =>
          exact ⟨_, _, _, _, lines_append plain cut, lines_append inline written, .inl rfl, later⟩
  | @newline atStart _ output other ending _ ih =>
      obtain ⟨first, rest, otherFirst, otherRest, cut, otherCut, here, later⟩ := ih
      have following : List.Forall₂ (IndentedPiece indent) (first :: rest)
          (otherFirst :: otherRest) := .cons (by simpa using here) later
      have ended (cs : List Char) : lines (ending.text.toList ++ cs) =
          ending.text.toList.dropLast :: lines cs := by
        cases ending
        · exact lines_newline cs
        · have carriage : '\n' ∉ ['\r'] := by decide
          exact lines_append carriage (lines_newline cs)
      refine ⟨_, _, _, _, ended output, ended other, ?_, cut ▸ otherCut ▸ following⟩
      cases atStart
      · rfl
      · refine .inr ⟨rfl, ?_⟩
        cases ending
        · exact .inl rfl
        · exact .inr rfl

theorem Indents.forall_lines (indents : Indents indent true output other last)
    (inline : '\n' ∉ indent) (plain : '\r' ∉ indent) :
    List.Forall₂ (IndentedLine indent) ((lines output).map dropReturn)
      ((lines other).map dropReturn) := by
  obtain ⟨first, rest, otherFirst, otherRest, cut, otherCut, here, later⟩ :=
    indents.exists_pieces inline
  rw [cut, otherCut, List.forall₂_map_left_iff, List.forall₂_map_right_iff]
  have pieces : List.Forall₂ (IndentedPiece indent) (first :: rest) (otherFirst :: otherRest) :=
    .cons here later
  exact pieces.imp fun _ _ piece => piece.indentedLine plain

/-- A line with the indentation in front of it, unless it has nothing in front of its ending. -/
def withIndent (indent line : List Char) : List Char :=
  if line = [] ∨ line = ['\n'] ∨ line = ['\r', '\n'] then line else indent ++ line

def indented (indent cs : List Char) : List Char := (keptLines cs).flatMap (withIndent indent)

def indentedFrom (indent : List Char) (atStart : Bool) (cs : List Char) : List Char :=
  let first := (keptLines cs).headD []
  (if atStart then withIndent indent first else first) ++
    (keptLines cs).tail.flatMap (withIndent indent)

theorem indentedFrom_true (indent cs : List Char) :
    indentedFrom indent true cs = indented indent cs := by
  unfold indentedFrom indented
  cases keptLines cs with
  | nil => rfl
  | cons first rest => rfl

theorem indentedFrom_nil (indent : List Char) (atStart : Bool) :
    indentedFrom indent atStart [] = [] := by
  cases atStart <;> rfl

theorem keptLines_append (filled : text ≠ []) (inline : '\n' ∉ text) (cs : List Char) :
    keptLines (text ++ cs) = (text ++ (keptLines cs).headD []) :: (keptLines cs).tail := by
  induction text with
  | nil => exact absurd rfl filled
  | cons c text ih =>
      rw [List.mem_cons, not_or] at inline
      obtain ⟨here, further⟩ := inline
      rw [List.cons_append, keptLines, if_neg (Ne.symm here)]
      cases text with
      | nil =>
          rw [List.nil_append]
          cases keptLines cs <;> rfl
      | cons next text =>
          rw [ih (List.cons_ne_nil _ _) further]
          rfl

theorem head?_headD_keptLines (cs : List Char) : ((keptLines cs).headD []).head? = cs.head? := by
  cases cs with
  | nil => rfl
  | cons c cs =>
      unfold keptLines
      split
      · rfl
      · split <;> rfl

theorem indentedFrom_newline (indent : List Char) (atStart : Bool) (ending : LineEnding)
    (cs : List Char) :
    indentedFrom indent atStart (ending.text.toList ++ cs) =
      ending.text.toList ++ indentedFrom indent true cs := by
  have kept : keptLines (ending.text.toList ++ cs) = ending.text.toList :: keptLines cs := by
    cases ending <;> rfl
  rw [indentedFrom_true, indentedFrom, kept]
  cases atStart <;> cases ending <;> rfl

theorem indentedFrom_append (filled : text ≠ []) (inline : '\n' ∉ text)
    (apart : text.getLast? = some '\r' → cs.head? ≠ some '\n') (atStart : Bool) :
    indentedFrom indent atStart (text ++ cs) =
      (if atStart then indent else []) ++ text ++ indentedFrom indent false cs := by
  have line : withIndent indent (text ++ (keptLines cs).headD []) =
      indent ++ (text ++ (keptLines cs).headD []) := by
    refine if_neg ?_
    obtain ⟨c, more, rfl⟩ := List.exists_cons_of_ne_nil filled
    rintro (empty | feed | both)
    · cases empty
    · obtain ⟨rfl, -⟩ := List.cons.inj feed
      simp at inline
    · obtain ⟨rfl, behind⟩ := List.cons.inj both
      cases more with
      | nil =>
          have starts := head?_headD_keptLines cs
          rw [show (keptLines cs).headD [] = ['\n'] from behind] at starts
          exact apart rfl starts.symm
      | cons next more =>
          obtain ⟨rfl, -⟩ := List.cons.inj behind
          simp at inline
  rw [indentedFrom, keptLines_append filled inline, indentedFrom, List.headD_cons, List.tail_cons]
  cases atStart with
  | false => simp
  | true =>
      rw [if_pos rfl, line]
      simp

end Stencil.Text
