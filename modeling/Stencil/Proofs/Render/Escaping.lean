import Stencil.Proofs.Render.Joined

/-!
What is written where values are escaped for HTML. Main statement: the output is put together from
the literals of a program and from values whose escaped texts hold no markup and can be decoded, so
that the markup of an output is that of the literals.
-/

namespace Stencil

namespace Escaper

/-- The characters that HTML gives a meaning, but for the one that entities begin with. -/
def markup : List Char := ['<', '>', '"', '\x27']

def entities : List (List Char) :=
  ["&amp;".toList, "&lt;".toList, "&gt;".toList, "&quot;".toList, "&#39;".toList]

def decode : List Char → List Char
  | '&' :: 'a' :: 'm' :: 'p' :: ';' :: rest => '&' :: decode rest
  | '&' :: 'l' :: 't' :: ';' :: rest => '<' :: decode rest
  | '&' :: 'g' :: 't' :: ';' :: rest => '>' :: decode rest
  | '&' :: 'q' :: 'u' :: 'o' :: 't' :: ';' :: rest => '"' :: decode rest
  | '&' :: '#' :: '3' :: '9' :: ';' :: rest => '\x27' :: decode rest
  | c :: rest => c :: decode rest
  | [] => []

def unescape (text : String) : String := String.ofList (decode text.toList)

/-- That a text is the escaped form of another one: it holds no markup, an ampersand only begins an
entity, and with its entities decoded it is the other text. -/
structure Escapes (text escaped : String) : Prop where
  clean : ∀ c ∈ markup, c ∉ escaped.toList
  entity : ∀ front rest, escaped.toList = front ++ '&' :: rest →
    ∃ entity ∈ entities, entity <+: '&' :: rest
  decoded : unescape escaped = text

theorem htmlChar_cases (c : Char) :
    (c ∈ '&' :: markup ∧ htmlChar c ∈ entities) ∨ (c ∉ '&' :: markup ∧ htmlChar c = [c]) := by
  by_cases special : c ∈ '&' :: markup
  · left
    simp only [markup, List.mem_cons, List.not_mem_nil, or_false] at special
    refine ⟨by simp [markup, special], ?_⟩
    obtain rfl | rfl | rfl | rfl | rfl := special <;> decide
  · right
    refine ⟨special, ?_⟩
    simp only [markup, List.mem_cons, List.not_mem_nil, or_false, not_or] at special
    simp [htmlChar, special]

theorem html_of_not_marked {text : String} (unmarked : isMarked text = false) :
    html text = text := by
  rw [html, unmarked, if_neg Bool.false_ne_true]

theorem flatMap_of_not_marked {text : String} (unmarked : isMarked text = false) :
    text.toList.flatMap htmlChar = text.toList := by
  have single : ∀ c ∈ text.toList, htmlChar c = [c] := by
    intro c member
    obtain ⟨special, -⟩ | ⟨-, same⟩ := htmlChar_cases c
    · exact absurd (decide_eq_true special) (List.any_eq_false.mp unmarked c member)
    · exact same
  rw [List.flatMap_congr single, List.flatMap_singleton']

theorem toList_html (text : String) : (html text).toList = text.toList.flatMap htmlChar := by
  cases marked : isMarked text with
  | true => rw [html, marked, if_pos rfl, String.toList_ofList]
  | false => rw [html_of_not_marked marked, flatMap_of_not_marked marked]

theorem decode_cons {c : Char} (plain : c ≠ '&') (rest : List Char) :
    decode (c :: rest) = c :: decode rest := by
  conv_lhs => unfold decode
  split <;> simp_all

theorem decode_htmlChar (c : Char) (rest : List Char) :
    decode (htmlChar c ++ rest) = c :: decode rest := by
  obtain ⟨special, -⟩ | ⟨plain, same⟩ := htmlChar_cases c
  · simp only [markup, List.mem_cons, List.not_mem_nil, or_false] at special
    obtain rfl | rfl | rfl | rfl | rfl := special <;> rfl
  · rw [same, List.singleton_append, decode_cons (List.ne_of_not_mem_cons plain)]

theorem decode_flatMap (cs : List Char) : decode (cs.flatMap htmlChar) = cs := by
  induction cs with
  | nil => rfl
  | cons c cs ih => rw [List.flatMap_cons, decode_htmlChar, ih]

theorem notMem_entity {entity : List Char} (member : entity ∈ entities) :
    ∀ c ∈ markup, c ∉ entity := by
  simp only [entities, List.mem_cons, List.not_mem_nil, or_false] at member
  obtain rfl | rfl | rfl | rfl | rfl := member <;> simp [markup]

theorem htmlChar_eq_cons (c : Char) :
    ∃ first name, htmlChar c = first :: name ∧ '&' ∉ name ∧
      (first = '&' → htmlChar c ∈ entities) := by
  obtain ⟨special, entity⟩ | ⟨plain, same⟩ := htmlChar_cases c
  · simp only [markup, List.mem_cons, List.not_mem_nil, or_false] at special
    obtain rfl | rfl | rfl | rfl | rfl := special <;>
      exact ⟨_, _, rfl, by decide, fun _ => entity⟩
  · exact ⟨c, [], same, List.not_mem_nil, fun mark => absurd mark (List.ne_of_not_mem_cons plain)⟩

theorem notMem_html {c : Char} (special : c ∈ markup) (text : String) : c ∉ (html text).toList := by
  rw [toList_html, List.mem_flatMap]
  rintro ⟨other, -, member⟩
  obtain ⟨-, entity⟩ | ⟨plain, same⟩ := htmlChar_cases other
  · exact notMem_entity entity c special member
  · rw [same, List.mem_singleton] at member
    exact plain (List.mem_cons_of_mem _ (member ▸ special))

theorem entity_of_flatMap {cs front rest : List Char}
    (split : cs.flatMap htmlChar = front ++ '&' :: rest) :
    ∃ entity ∈ entities, entity <+: '&' :: rest := by
  induction cs generalizing front with
  | nil => cases front <;> cases split
  | cons c cs ih =>
      obtain ⟨first, name, escaped, unmarked, entity⟩ := htmlChar_eq_cons c
      rw [List.flatMap_cons] at split
      obtain _ | ⟨one, front⟩ := front
      · have mark : first = '&' := by
          rw [escaped] at split
          exact (List.cons.inj split).1
        exact ⟨_, entity mark, _, split⟩
      · rw [escaped, List.cons_append, List.cons_append, List.cons.injEq,
          List.append_eq_append_iff] at split
        obtain ⟨-, ⟨more, -, behind⟩ | ⟨_ | ⟨mark, more⟩, inside, behind⟩⟩ := split
        · exact ih behind
        · exact @ih [] behind.symm
        · obtain ⟨rfl, -⟩ := List.cons.inj behind
          exact absurd (by simp [inside]) unmarked

theorem unescape_html (text : String) : unescape (html text) = text := by
  rw [unescape, toList_html, decode_flatMap, String.ofList_toList]

theorem escapes_html (text : String) : Escapes text (html text) where
  clean _ special := notMem_html special text
  entity _ _ split := entity_of_flatMap ((toList_html text).symm.trans split)
  decoded := unescape_html text

theorem html_injective : Function.Injective html :=
  Function.LeftInverse.injective unescape_html

end Escaper

mutual

def Instruction.literals : Instruction → List String
  | .literal text => [text]
  | .value _ _ | .lambda _ none => []
  | .conditional _ body | .inverted _ body | .inclusion _ body | .block _ body
  | .lambda _ (some body) => allLiterals body

def allLiterals : List Instruction → List String
  | [] => []
  | instruction :: rest => instruction.literals ++ allLiterals rest

end

mutual

def Instruction.isEscaped : Instruction → Bool
  | .literal _ | .value _ .escaped => true
  | .value _ .raw | .lambda _ _ => false
  | .conditional _ body | .inverted _ body | .inclusion _ body | .block _ body =>
      allEscaped body

def allEscaped : List Instruction → Bool
  | [] => true
  | instruction :: rest => instruction.isEscaped && allEscaped rest

end

/-- What one instruction writes at one time. -/
inductive Piece where
  | literal (text : String)
  | value (value : Value) (escaping : Escaping)
  | lambda (output : String)

namespace Renderer

def pieceText (renderer : Renderer) : Piece → String
  | .literal text | .lambda text => text
  | .value value escaping => renderer.write value.text escaping

def join (renderer : Renderer) (pieces : List Piece) : String :=
  String.join (pieces.map renderer.pieceText)

mutual

def pieces (renderer : Renderer) (bindings : Bindings) :
    Instruction → Except RenderError (List Piece)
  | .literal text => .ok [.literal text]
  | .value expr escaping => do return [.value (← bindings.eval expr) escaping]
  | .conditional guard body => do
      let parts ← (← bindings.passes guard).mapM fun inner => piecesAll renderer inner body
      return parts.flatten
  | .inverted guard body => do
      if (← bindings.passes guard).isEmpty then piecesAll renderer bindings body
      else return []
  | .inclusion _ body | .block _ body => piecesAll renderer bindings body
  | .lambda call body => do return [.lambda (← renderer.run bindings (.lambda call body))]

def piecesAll (renderer : Renderer) (bindings : Bindings) :
    List Instruction → Except RenderError (List Piece)
  | [] => .ok []
  | instruction :: rest => do
      let first ← pieces renderer bindings instruction
      return first ++ (← piecesAll renderer bindings rest)

end

section

variable (renderer : Renderer)

theorem join_append (first second : List Piece) :
    renderer.join (first ++ second) = renderer.join first ++ renderer.join second := by
  rw [join, List.map_append, String.join_append]
  rfl

theorem join_flatten (parts : List (List Piece)) :
    renderer.join parts.flatten = String.join (parts.map renderer.join) := by
  rw [join, List.map_flatten, Text.join_flatten, List.map_map]
  rfl

mutual

theorem run_eq_join (bindings : Bindings) (instruction : Instruction) :
    renderer.run bindings instruction =
      (renderer.pieces bindings instruction).map renderer.join := by
  cases instruction with
  | literal text => simp [run, pieces, Except.map, join, pieceText]
  | value expr escaping =>
      rw [run, pieces]
      cases bindings.eval expr with
      | error problem => rfl
      | ok value => simp [Except.map, join, pieceText]
  | conditional guard body =>
      rw [run, pieces]
      cases bindings.passes guard with
      | error problem => rfl
      | ok steps =>
          simp only [ok_bind, runAll_eq_join, mapM_map]
          cases steps.mapM fun inner => piecesAll renderer inner body with
          | error problem => rfl
          | ok parts => exact congrArg Except.ok (renderer.join_flatten parts).symm
  | inverted guard body =>
      rw [run, pieces]
      cases bindings.passes guard with
      | error problem => rfl
      | ok steps =>
          simp only [ok_bind, runAll_eq_join]
          cases steps.isEmpty <;> rfl
  | inclusion name body | block name body =>
      rw [run, pieces, runAll_eq_join]
  | lambda call body =>
      rw [pieces]
      cases renderer.run bindings (.lambda call body) with
      | error problem => rfl
      | ok text => simp [Except.map, join, pieceText]

theorem runAll_eq_join (bindings : Bindings) (instructions : List Instruction) :
    renderer.runAll bindings instructions =
      (renderer.piecesAll bindings instructions).map renderer.join := by
  cases instructions with
  | nil => rfl
  | cons instruction rest =>
      rw [runAll, piecesAll, run_eq_join, runAll_eq_join]
      cases renderer.pieces bindings instruction with
      | error problem => rfl
      | ok first =>
          cases renderer.piecesAll bindings rest with
          | error problem => rfl
          | ok more => exact congrArg Except.ok (renderer.join_append first more).symm

end

def programPieces (program : Program) (data : Json) (context : ContextNode) :
    Except RenderError (List Piece) :=
  renderer.piecesAll (.root program.name data context) program.instructions

variable {renderer}

mutual

theorem pieces_cases {bindings : Bindings} {instruction : Instruction} {written : List Piece}
    (escaped : instruction.isEscaped = true)
    (done : renderer.pieces bindings instruction = .ok written) :
    ∀ piece ∈ written, (∃ text ∈ instruction.literals, piece = .literal text) ∨
      ∃ value, piece = .value value .escaped := by
  intro piece member
  cases instruction with
  | literal text =>
      cases done
      exact .inl ⟨text, List.mem_singleton_self text, List.mem_singleton.mp member⟩
  | value expr escaping =>
      cases escaping with
      | raw => cases escaped
      | escaped =>
          obtain ⟨value, -, same⟩ := bind_eq_ok.mp done
          cases same
          exact .inr ⟨value, List.mem_singleton.mp member⟩
  | conditional guard body =>
      obtain ⟨steps, -, done⟩ := bind_eq_ok.mp done
      obtain ⟨parts, each, same⟩ := bind_eq_ok.mp done
      cases same
      obtain ⟨part, within, member⟩ := List.mem_flatten.mp member
      obtain ⟨step, done⟩ := exists_of_mem_forall₂ (mapM_eq_ok.mp each) within
      exact piecesAll_cases escaped done piece member
  | inverted guard body =>
      obtain ⟨steps, -, done⟩ := bind_eq_ok.mp done
      cases empty : steps.isEmpty with
      | true =>
          rw [empty, if_pos rfl] at done
          exact piecesAll_cases escaped done piece member
      | false =>
          rw [empty, if_neg Bool.false_ne_true] at done
          cases done
          cases member
  | inclusion name body | block name body => exact piecesAll_cases escaped done piece member
  | lambda call body => cases escaped

theorem piecesAll_cases {bindings : Bindings} {instructions : List Instruction}
    {written : List Piece} (escaped : allEscaped instructions = true)
    (done : renderer.piecesAll bindings instructions = .ok written) :
    ∀ piece ∈ written, (∃ text ∈ allLiterals instructions, piece = .literal text) ∨
      ∃ value, piece = .value value .escaped := by
  intro piece member
  cases instructions with
  | nil =>
      cases done
      cases member
  | cons instruction rest =>
      obtain ⟨here, further⟩ := Bool.and_eq_true_iff.mp escaped
      obtain ⟨first, one, done⟩ := bind_eq_ok.mp done
      obtain ⟨more, others, same⟩ := bind_eq_ok.mp done
      cases same
      obtain member | member := List.mem_append.mp member
      · refine (pieces_cases here one piece member).imp_left ?_
        rintro ⟨text, literal, same⟩
        exact ⟨text, List.mem_append_left _ literal, same⟩
      · refine (piecesAll_cases further others piece member).imp_left ?_
        rintro ⟨text, literal, same⟩
        exact ⟨text, List.mem_append_right _ literal, same⟩

end

end

end Renderer

/-- What a program writes that escapes every value for HTML: its literals and escaped texts of
values, put one behind the other. An escaped text holds no markup, an ampersand in it begins an
entity, and with the entities decoded it is the text of the value. So the markup of the output is
that of the literals, and no two texts are escaped alike. -/
theorem Renderer.render_html {lambdas : Table Lambda} {program : Program} {data : Json}
    {context : ContextNode} {output : String}
    (escaped : allEscaped program.instructions = true)
    (rendered : (Renderer.mk Escaper.html lambdas).render program data context = .ok output) :
    (∃ pieces, (Renderer.mk Escaper.html lambdas).programPieces program data context = .ok pieces ∧
      output = (Renderer.mk Escaper.html lambdas).join pieces ∧
      ∀ piece ∈ pieces, (∃ text ∈ allLiterals program.instructions, piece = .literal text) ∨
        ∃ value, piece = .value value .escaped ∧
          Escaper.Escapes value.text (Escaper.html value.text)) ∧
      (∀ c ∈ Escaper.markup, (∀ text ∈ allLiterals program.instructions, c ∉ text.toList) →
        c ∉ output.toList) ∧
      Function.Injective Escaper.html := by
  have run := (runAll_eq_join _ _ _).symm.trans rendered
  obtain ⟨pieces, written, rfl⟩ := map_eq_ok.mp run
  have each := piecesAll_cases escaped written
  refine ⟨⟨pieces, written, rfl, ?_⟩, ?_, Escaper.html_injective⟩
  · intro piece member
    refine (each piece member).imp_right ?_
    rintro ⟨value, same⟩
    exact ⟨value, same, Escaper.escapes_html value.text⟩
  · intro c special clean member
    rw [join, String.toList_join, List.mem_flatMap] at member
    obtain ⟨text, within, member⟩ := member
    obtain ⟨piece, written, rfl⟩ := List.mem_map.mp within
    obtain ⟨text, literal, rfl⟩ | ⟨value, rfl⟩ := each piece written
    · exact clean text literal member
    · exact Escaper.notMem_html special value.text member

/-- A loop over texts with markup in them. -/
theorem Renderer.render_html_loop :
    let renderer : Renderer := ⟨Escaper.html, []⟩
    let program : Program := ⟨"main", [.conditional (.each (.var "data") "item" "index")
      [.literal "- ", .value (.var "item") .escaped, .literal "\n"]], []⟩
    let data : Json := .array [.string "<b>", .string "R&D"]
    let output := "- &lt;b&gt;\n- R&amp;D\n"
    allEscaped program.instructions = true ∧
      renderer.render program data .empty = .ok output ∧
      (∃ pieces, renderer.programPieces program data .empty = .ok pieces ∧
        output = renderer.join pieces ∧
        ∀ piece ∈ pieces, (∃ text ∈ ["- ", "\n"], piece = .literal text) ∨
          ∃ value, piece = .value value .escaped ∧
            Escaper.Escapes value.text (Escaper.html value.text)) ∧
      ∀ c ∈ Escaper.markup, c ∉ output.toList := by
  intro renderer program data output
  have rendered : renderer.render program data .empty = .ok output :=
    eq_ok_of_toOption (by decide +kernel)
  have escaped : allEscaped program.instructions = true := rfl
  obtain ⟨pieces, clean, -⟩ := render_html escaped rendered
  refine ⟨escaped, rendered, pieces, ?_⟩
  intro c special
  refine clean c special ?_
  have plain : ∀ text ∈ ["- ", "\n"], ∀ c ∈ Escaper.markup, c ∉ text.toList := by
    simp [Escaper.markup]
  exact fun text literal => plain text literal c special

end Stencil
