import Stencil.Proofs.Compile.LambdaBlocks
import Stencil.Proofs.Compile.LambdaCalls

/-!
The indentation of lambdas. Main statement: a lambda whose end tag has its line to itself takes over
the indentation that is due, and any other is called behind it.
-/

namespace Stencil

namespace Compile

open LineClassifier Token

variable {name : String} {tokens before after : List Token} {closer : Token}
  {earlier later : List LineGroup} {here rest : List LineToken}

theorem endsAlone_of_line (line : StandaloneLine) :
    endsAlone name (line.before.toList.map (LineToken.of .indent))
      ((line.after.toList ++ [line.ending]).map (LineToken.of .ignore)) = true := by
  have indents : ∀ t ∈ line.before.toList.map (LineToken.of .indent), t.role = .indent := by
    intro t member
    obtain ⟨token, within, rfl⟩ := List.mem_map.mp member
    have inside := endsLine_of_isWhitespace
      (line.before_isWhitespace token (Option.mem_toList.mp within))
    rw [Token.endsLine, Bool.or_eq_false_iff] at inside
    simp [LineToken.of, inside.2]
  rw [endsAlone, Bool.and_eq_true, Bool.and_eq_true, List.all_eq_true, List.all_eq_true]
  refine ⟨⟨fun t member => by simpa using indents t member, by simp⟩, fun t member => ?_⟩
  have ignored : t.role ≠ .normal := LineToken.role_ne_of_mem (by decide) (by decide) t member
  simp [ignored]

theorem endsAlone_of_next {next : Token} (isNext : next.isStandalone = true)
    (other : next.kind ≠ .tag .close name) : endsAlone name here [.of .normal next] = false := by
  have normal := LineToken.role_of_normal isNext
  have kind : (LineToken.of .normal next).token.kind ≠ .tag .close name := other
  simp [endsAlone, normal, kind]

/-- An end tag is taken to have its line to itself if it has, unless an end tag of the same name
stands behind it at the start of a line. -/
theorem endsAlone_eq_isAlone (ends : EndsOnce (before ++ closer :: after))
    (closes : closer.kind = .tag .close name)
    (released : drain true (before ++ closer :: after) =
      earlier ++ (here ++ .of .normal closer :: rest) :: later)
    (inFront : (earlier.flatten ++ here).map LineToken.token = before)
    (behind : (rest ++ later.flatten).map LineToken.token = after)
    (apart : (∀ token ∈ before.getLast?, token.endsLine = true) →
      ∀ next ∈ after.head?, next.kind ≠ .tag .close name) :
    endsAlone name here rest = isAlone before after := by
  have isTag : closer.isStandalone = true := by
    rw [Token.isStandalone, closes]
    rfl
  have line := isAlone_iff_line ends isTag released inFront
  have formed : Formed (here ++ .of .normal closer :: rest) :=
    formed_of_mem_drain (by rw [released]; simp)
  have notAlone (other : ∀ line : StandaloneLine,
      rest ≠ (line.after.toList ++ [line.ending]).map (LineToken.of .ignore)) :
      isAlone before after = false := by
    by_contra alone
    obtain ⟨whole, -, -, same⟩ := line.mp (eq_true_of_ne_false alone)
    exact other whole same
  obtain ⟨first, rfl, rfl⟩ | ⟨next, isNext, rfl, rfl⟩ | ⟨whole, sameTag, rfl, rfl⟩ :=
    formed.around isTag
  · rw [notAlone fun line => by simp]
    simp [endsAlone]
  · have startsLine : ∀ token ∈ before.getLast?, token.endsLine = true := by
      intro token last
      rw [← inFront, List.append_nil, List.getLast?_map] at last
      obtain ⟨t, final, rfl⟩ := Option.map_eq_some_iff.mp last
      exact (startsLine_of_drain released (by simp)).2 t final
    have other : next.kind ≠ .tag .close name :=
      apart startsLine next (by rw [← behind]; rfl)
    rw [endsAlone_of_next isNext other, notAlone]
    intro line same
    have member := List.mem_singleton_self (LineToken.of .normal next)
    rw [same] at member
    exact LineToken.role_ne_of_mem (by decide) (by decide) _ member
      (LineToken.role_of_normal isNext)
  · rw [line.mpr ⟨whole, sameTag, rfl, rfl⟩, endsAlone_of_line]

namespace LambdaOpening

variable {setting : Setting} {nested? : Option Nested} {body : Body} {inner : List Token}

theorem endsOnce (o : LambdaOpening setting nested? body) (collected : body.blocks.AreCollected) :
    EndsOnce (o.front ++ o.tag :: o.rest) ∧
      groups body = .ok (groupsOf (o.front ++ o.tag :: o.rest)) := by
  have grouped := o.grouped
  rw [groups] at grouped
  cases read : tokenize body.stack.top.name body.source with
  | error error =>
      rw [read] at grouped
      cases grouped
  | ok tokens =>
      have ends := BlockReplacement.endsOnce_replaceAll (s := .start body.blocks) collected
        (endsOnce_of_tokenize read)
      have found : groups body =
          .ok (groupsOf ((BlockReplacement.start body.blocks).replaceAll tokens)) := by
        rw [groups, read]
      rw [← o.tokens_of_groups ends found]
      exact ⟨ends, found⟩

/-- A lambda whose end tag has its line to itself takes over the indentation that is due, and any
other is called behind it. -/
theorem indent_eq {nested : Nested} (o : LambdaOpening setting (some nested) body)
    (filled : body.indent ≠ "") (collected : body.blocks.AreCollected)
    (split : o.rest = inner ++ closer :: after) (balanced : IsBalanced inner)
    (closes : closer.kind = .tag .close o.name)
    (apart : o.state.atLineStart = true →
      (∀ token ∈ (o.front ++ o.tag :: inner).getLast?, token.endsLine = true) →
        ∀ next ∈ after.head?, next.kind ≠ .tag .close o.name) :
    ∃ leading call template s closing standalone rest later,
      call.name = o.name ∧ s.mode = .normal ∧ (rest ++ later.flatten).map LineToken.token = after ∧
      compileWith setting (some nested) body = readOn setting (some nested) body closing standalone
        (.ok (o.events ++ (leading ++ [.lambda call template]), s)) rest later ∧
      (isAlone (o.front ++ o.tag :: inner) after = true ∧ o.state.atLineStart = true →
        call.indent = body.indent ∧ leading = []) ∧
      (¬ (isAlone (o.front ++ o.tag :: inner) after = true ∧ o.state.atLineStart = true) →
        call.indent = "" ∧
        leading = if o.state.atLineStart then [.call (.literal body.indent)] else []) := by
  obtain ⟨ends, grouped⟩ := o.endsOnce collected
  obtain ⟨flag, earlier, here, rest, later, released, inFront, behind, called⟩ :=
    o.compileWith_calling ends grouped split balanced closes
  have reshaped : o.front ++ o.tag :: o.rest = (o.front ++ o.tag :: inner) ++ closer :: after := by
    rw [split, List.append_assoc, List.cons_append]
  rw [groupsOf_eq_drain ends, reshaped] at released
  rw [reshaped] at ends
  obtain ⟨atLineStart, state⟩ := lambdaIndent_after body o.calling (endsAlone o.name here rest)
  have written : body.indent.isEmpty = false := by simpa using filled
  refine ⟨_, _, _, _, flag, _, rest, later, rfl, by rw [state]; rfl, behind, called, ?_⟩
  cases start : o.state.atLineStart with
  | false =>
      have started : o.calling.atLineStart = false := start
      simp [lambdaIndent, lambdaCall, indentLine, started]
  | true =>
      have started : o.calling.atLineStart = true := start
      rw [endsAlone_eq_isAlone ends closes released inFront behind (apart start)]
      cases isAlone (o.front ++ o.tag :: inner) after <;>
        simp [lambdaIndent, lambdaCall, indentLine, started, written]

end LambdaOpening

theorem indent_eq_own_line :
    ∃ (setting : Setting) (body : Body)
      (o : LambdaOpening setting (some (compileBody setting 0)) body) (inner after : List Token)
      (closer : Token),
      body.source = "{{#f}}\nx\n{{/f}}\n" ∧ body.indent = "  " ∧
        body.indent ≠ "" ∧ body.blocks.AreCollected ∧ o.rest = inner ++ closer :: after ∧
        IsBalanced inner ∧ closer.kind = .tag .close o.name ∧
        (∀ next ∈ after.head?, next.kind ≠ .tag .close o.name) ∧
        ∃ leading call template s closing standalone rest later,
          call.name = o.name ∧ s.mode = .normal ∧
          (rest ++ later.flatten).map LineToken.token = after ∧
          compileWith setting (some (compileBody setting 0)) body =
            readOn setting (some (compileBody setting 0)) body closing standalone
              (.ok (o.events ++ (leading ++ [.lambda call template]), s)) rest later ∧
          call.indent = "  " ∧ leading = [] := by
  let schema := (Schema.ofRoot (.struct "Page")).withStruct "Page" ⟨[], [("f", .raw)]⟩
  let setting : Setting := ⟨schema, .ofCatalog [], .default⟩
  let source := "{{#f}}\nx\n{{/f}}\n"
  let body : Body := { Body.root schema ⟨"main", source⟩ with indent := "  " }
  let place (line column : Nat) (text : String) : Position := ⟨"main", line, column, text⟩
  let opening : Token := ⟨.tag .openSection "f", place 1 1 "{{#f}}", "{{#f}}"⟩
  let first : Token := ⟨.newline .lf, place 1 7 "{{#f}}", "\n"⟩
  let word : Token := ⟨.text "x", place 2 1 "x", "x"⟩
  let second : Token := ⟨.newline .lf, place 2 2 "x", "\n"⟩
  let closer : Token := ⟨.tag .close "f", place 3 1 "{{/f}}", "{{/f}}"⟩
  let third : Token := ⟨.newline .lf, place 3 7 "{{/f}}", "\n"⟩
  let ending : Token := ⟨.eof, place 4 1 "", ""⟩
  let o : LambdaOpening setting (some (compileBody setting 0)) body :=
    { earlier := []
      pre := []
      tag := opening
      post := [⟨first, .ignore⟩]
      later := [single word, single second, [⟨closer, .normal⟩, ⟨third, .ignore⟩], single ending]
      name := "f"
      decl := .raw
      names := .root
      events := []
      state := .start body
      grouped := by decide +kernel
      isSection := rfl
      reached := rfl
      normal := rfl
      means := by decide +kernel }
  have filled : body.indent ≠ "" := by decide
  have collected : body.blocks.AreCollected := by simp [GivenBlocks.AreCollected, body, Body.root]
  have split : o.rest = [first, word, second] ++ closer :: [third, ending] := rfl
  have balanced : IsBalanced [first, word, second] := by decide
  have apart : ∀ next ∈ [third, ending].head?, next.kind ≠ .tag .close o.name := by simp [third]
  obtain ⟨leading, call, template, s, closing, standalone, rest, later, named, normal, behind,
    compiled, owed, -⟩ := o.indent_eq filled collected split balanced rfl fun _ _ => apart
  exact ⟨setting, body, o, _, _, closer, rfl, rfl, filled, collected, split, balanced, rfl, apart,
    leading, call, template, s, closing, standalone, rest, later, named, normal, behind, compiled,
    owed ⟨rfl, rfl⟩⟩

/-- The end tag of a lambda hands over the indentation without having its line to itself if the end
tag of a block with the name of the lambda is next to it. -/
theorem indent_before_end_of_block :
    ∃ (schema : Schema) (library : Library) (front inner after : List Token)
      (opening closer : Token) (call : LambdaCall),
      library "p" (.root "main") =
          .ok ⟨"p", "{{$f}}{{#f}}\nx\n{{/f}}{{/f}}y\n"⟩ ∧
        tokenize "p" "{{$f}}{{#f}}\nx\n{{/f}}{{/f}}y\n" =
          .ok (front ++ opening :: (inner ++ closer :: after)) ∧
        opening.kind = .tag .openSection "f" ∧ IsBalanced inner ∧
        closer.kind = .tag .close "f" ∧ isAlone (front ++ opening :: inner) after = false ∧
        (compile schema library .default ⟨"main", "  {{>p}}\n"⟩).map
            (List.map Event.seen) =
          .ok [.inl (.enterPartial "p"), .inl (.enterBlock "f"), .inr call, .inl .exitBlock,
            .inl (.literal "  "), .inl (.literal "y"), .inl (.literal "\n"), .inl .exitPartial] ∧
        call.name = "f" ∧ call.indent = "  " := by
  let schema := (Schema.ofRoot (.struct "Page")).withStruct "Page" ⟨[], [("f", .raw)]⟩
  let source := "{{$f}}{{#f}}\nx\n{{/f}}{{/f}}y\n"
  let place (line column : Nat) (text : String) : Position := ⟨"p", line, column, text⟩
  let tags := "{{$f}}{{#f}}"
  let ends := "{{/f}}{{/f}}y"
  exact ⟨schema, .ofCatalog [("p", source)],
    [⟨.tag .openBlock "f", place 1 1 tags, "{{$f}}"⟩],
    [⟨.newline .lf, place 1 13 tags, "\n"⟩, ⟨.text "x", place 2 1 "x", "x"⟩,
      ⟨.newline .lf, place 2 2 "x", "\n"⟩],
    [⟨.tag .close "f", place 3 7 ends, "{{/f}}"⟩, ⟨.text "y", place 3 13 ends, "y"⟩,
      ⟨.newline .lf, place 3 14 ends, "\n"⟩, ⟨.eof, place 4 1 "", ""⟩],
    ⟨.tag .openSection "f", place 1 7 tags, "{{#f}}"⟩,
    ⟨.tag .close "f", place 3 1 ends, "{{/f}}"⟩,
    ⟨"f", "\nx\n", .var "data", .raw, .raw, "  "⟩, rfl, eq_ok_of_toOption (by decide +kernel), rfl,
    by decide, rfl, by decide, eq_ok_of_toOption (by decide +kernel), rfl, rfl⟩

end Compile

end Stencil
