import Stencil.Proofs.Compile.LambdaSections
import Stencil.Proofs.Token.Excerpt

/-!
The text that a lambda is called with. Main statement: it comes to the tokens that stand between the
tags of the section, if the standard delimiters are in force where the section opens.
-/

namespace Stencil

namespace Compile

open LineClassifier Token

variable {setting : Setting} {nested? : Option Nested} {body : Body} {events : List Event}
  {last : Bool} {inner after : List Token} {closing : Token} {endName : String}

/-- A lambda section keeps its meaning when it is compiled later, if the standard delimiters are in
force where it opens. -/
theorem LambdaOpening.tokenize_called (o : LambdaOpening setting nested? body)
    (noBlocks : ∀ name, body.blocks.find? name = none)
    (standard : inForce Delimiters.standard.texts o.front = Delimiters.standard.texts)
    (split : o.rest = inner ++ closing :: after) (balanced : IsBalanced inner)
    (closes : closing.kind = .tag .close endName)
    (compiled : compileWith setting nested? body = .ok (events, last)) :
    ∃ leading call template more,
      events = o.events ++ (leading ++ .lambda call template :: more) ∧
      (∀ event ∈ leading, event = .call (.literal body.indent)) ∧ call.name = o.name ∧
      ∀ other, ∃ tokens, tokenize other call.body = .ok tokens ∧
        tokens.map Token.kind =
          (between o.front o.tag inner closing after).map Token.kind ++ [.eof] := by
  obtain ⟨tokens, read, same⟩ := groups_ungiven noBlocks o.grouped
  have ends := endsOnce_of_tokenize read
  have grouped : groups body = .ok (groupsOf tokens) := same ▸ o.grouped
  obtain rfl := o.tokens_of_groups ends grouped
  obtain ⟨leading, call, template, more, spelled, indent, named, text⟩ :=
    o.called ends grouped split balanced closes compiled
  rw [split] at read
  refine ⟨leading, call, template, more, spelled, indent, named, fun other => ?_⟩
  rw [text]
  exact tokenize_between read o.isSection closes standard other

theorem tokenize_called_own_line :
    ∃ (setting : Setting) (body : Body)
      (o : LambdaOpening setting (some (compileBody setting 0)) body) (inner after : List Token)
      (closing : Token) (events : List Event) (last : Bool),
      body.source = "{{#f}}\n{{x}}\n{{/f}}" ∧
        (∀ name, body.blocks.find? name = none) ∧
        inForce Delimiters.standard.texts o.front = Delimiters.standard.texts ∧
        o.rest = inner ++ closing :: after ∧ IsBalanced inner ∧ closing.kind = .tag .close "f" ∧
        compileWith setting (some (compileBody setting 0)) body = .ok (events, last) ∧
        (between o.front o.tag inner closing after).map Token.kind =
          [.tag .escaped "x", .newline .lf] ∧
        ∃ leading call template more,
          events = o.events ++ (leading ++ .lambda call template :: more) ∧
          (∀ event ∈ leading, event = .call (.literal body.indent)) ∧ call.name = o.name ∧
          ∀ other, ∃ tokens, tokenize other call.body = .ok tokens ∧
            tokens.map Token.kind =
              (between o.front o.tag inner closing after).map Token.kind ++ [.eof] := by
  let schema := (Schema.ofRoot (.struct "Page")).withStruct "Page" ⟨[("x", .text)], [("f", .raw)]⟩
  let setting : Setting := ⟨schema, .ofCatalog [], .default⟩
  let body : Body := .root schema ⟨"main", "{{#f}}\n{{x}}\n{{/f}}"⟩
  let place (line column : Nat) (text : String) : Position := ⟨"main", line, column, text⟩
  let opening : Token := ⟨.tag .openSection "f", place 1 1 "{{#f}}", "{{#f}}"⟩
  let newline : Token := ⟨.newline .lf, place 1 7 "{{#f}}", "\n"⟩
  let value : Token := ⟨.tag .escaped "x", place 2 1 "{{x}}", "{{x}}"⟩
  let second : Token := ⟨.newline .lf, place 2 6 "{{x}}", "\n"⟩
  let closing : Token := ⟨.tag .close "f", place 3 1 "{{/f}}", "{{/f}}"⟩
  let ending : Token := ⟨.eof, place 3 7 "{{/f}}", ""⟩
  let o : LambdaOpening setting (some (compileBody setting 0)) body :=
    { earlier := []
      pre := []
      tag := opening
      post := [⟨newline, .ignore⟩]
      later := [single value, single second, [⟨closing, .normal⟩, ⟨ending, .eof⟩]]
      name := "f"
      decl := .raw
      names := .root
      events := []
      state := .start body
      grouped := by decide +kernel
      isSection := rfl
      reached := rfl
      normal := rfl
      means := by decide +kernel }
  have noBlocks : ∀ name, body.blocks.find? name = none := fun _ => rfl
  have split : o.rest = [newline, value, second] ++ closing :: [ending] := rfl
  have balanced : IsBalanced [newline, value, second] := by decide
  have succeeds : (compileWith setting (some (compileBody setting 0)) body).isOk = true := by
    decide +kernel
  obtain ⟨⟨events, last⟩, compiled⟩ := eq_ok_of_isOk succeeds
  exact ⟨setting, body, o, _, _, closing, events, last, rfl, noBlocks, rfl, split, balanced, rfl,
    compiled, by decide +kernel, o.tokenize_called noBlocks rfl split balanced rfl compiled⟩

/-- The text that a lambda is called with does not say which delimiters were in force. -/
theorem tokenize_called_other_delimiters :
    ∃ (schema : Schema) (front inner after tokens : List Token) (opening closing : Token)
      (call : LambdaCall),
      tokenize "main" "{{=<% %>=}}<%#f%><%x%><%/f%>" =
          .ok (front ++ opening :: (inner ++ closing :: after)) ∧
        opening.kind = .tag .openSection "f" ∧ IsBalanced inner ∧
        closing.kind = .tag .close "f" ∧
        (compile schema (.ofCatalog []) .default
            ⟨"main", "{{=<% %>=}}<%#f%><%x%><%/f%>"⟩).map (List.map Event.seen) =
          .ok [.inr call] ∧
        tokenize "main" call.body = .ok tokens ∧
        tokens.map Token.kind ≠
          (between front opening inner closing after).map Token.kind ++ [.eof] := by
  let schema := (Schema.ofRoot (.struct "Page")).withStruct "Page"
    ⟨[], [("f", .model (.struct "Model"))]⟩ |>.withStruct "Model" ⟨[("x", .text)], []⟩
  let place (column : Nat) : Position := ⟨"main", 1, column, "{{=<% %>=}}<%#f%><%x%><%/f%>"⟩
  let change : Token := ⟨.delimiters "<%" "%>", place 1, "{{=<% %>=}}"⟩
  let opening : Token := ⟨.tag .openSection "f", place 12, "<%#f%>"⟩
  let value : Token := ⟨.tag .escaped "x", place 18, "<%x%>"⟩
  let closing : Token := ⟨.tag .close "f", place 23, "<%/f%>"⟩
  let text : Token := ⟨.text "<%x%>", ⟨"main", 1, 1, "<%x%>"⟩, "<%x%>"⟩
  exact ⟨schema, [change], [value], [⟨.eof, place 29, ""⟩],
    [text, ⟨.eof, ⟨"main", 1, 6, "<%x%>"⟩, ""⟩], opening, closing,
    ⟨"f", "<%x%>", .var "data", .raw, .model "model", ""⟩, by decide +kernel, rfl, by decide, rfl,
    eq_ok_of_toOption (by decide +kernel), by decide +kernel, by decide⟩

end Compile

end Stencil
