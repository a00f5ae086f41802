import Stencil.Proofs.Compile.LambdaSections
import Stencil.Proofs.Template.Markup

/-!
Lambda sections of a parent. Main statement: whatever blocks a call gives, a lambda section of the
parent is called with its text as it is written, if it has none of these blocks inside.
-/

namespace Stencil

namespace ParentCall

def GoesOn (blocks : List GivenBlock) : Prop :=
  ∀ block ∈ blocks, ∀ token ∈ block.tokens, token.isEof = false

variable {call next last : ParentCall} {token : Token} {tokens : List Token}

theorem goesOn_keep (goesOn : GoesOn call.blocks) (within : token.isEof = false) :
    GoesOn (call.keep token).blocks := by
  unfold keep
  split
  · next block earlier _ same =>
      rw [same] at goesOn
      obtain ⟨here, further⟩ := List.forall_mem_cons.mp goesOn
      refine List.forall_mem_cons.mpr ⟨?_, further⟩
      exact List.forall_mem_append.mpr ⟨here, List.forall_mem_singleton.mpr within⟩
  · exact goesOn

theorem goesOn_push {closed : Bool} (goesOn : GoesOn call.blocks)
    (pushed : call.push token = .ok (next, closed)) : GoesOn next.blocks := by
  unfold push at pushed
  split at pushed
  · next name kind =>
      have within : token.isEof = false := by rw [Token.isEof, kind]
      unfold closeTag at pushed
      dsimp only at pushed
      repeat' split at pushed
      all_goals cases pushed
      · exact goesOn
      · exact goesOn
      · exact goesOn_keep goesOn within
      · exact goesOn_keep goesOn within
  · next tagKind name _ kind =>
      have within : token.isEof = false := by rw [Token.isEof, kind]
      split at pushed
      · obtain ⟨opened, done, same⟩ := map_eq_ok.mp pushed
        obtain ⟨rfl, -⟩ := Prod.mk.inj same
        unfold openTag at done
        repeat' split at done
        all_goals cases done
        · exact List.forall_mem_cons.mpr ⟨List.forall_mem_nil _, goesOn⟩
        · exact goesOn_keep goesOn within
      · cases pushed
        exact goesOn_keep goesOn within
  · cases pushed
  · next kind =>
      cases pushed
      exact goesOn_keep goesOn (eq_false_of_ne_true fun isEof => kind (Token.isEof_iff.mp isEof))

theorem Collects.goesOn (collects : Collects call tokens last) (goesOn : GoesOn call.blocks) :
    GoesOn last.blocks := by
  induction collects with
  | nil => exact goesOn
  | cons pushed _ ih => exact ih (goesOn_push goesOn pushed)

end ParentCall

def GivenBlocks.AreCollected (given : GivenBlocks) : Prop :=
  ∀ blocks ∈ given, ∃ parent position tokens call,
    ParentCall.Collects (.start parent position) tokens call ∧ blocks = call.givenBlocks

theorem GivenBlocks.AreCollected.isEof {given : GivenBlocks} (collected : given.AreCollected)
    {name : String} {tokens : List Token} (found : given.find? name = some tokens) :
    ∀ token ∈ tokens, token.isEof = false := by
  obtain ⟨block, first, rfl⟩ := Option.map_eq_some_iff.mp found
  obtain ⟨blocks, member, within⟩ := List.mem_flatten.mp (List.mem_of_find?_eq_some first)
  obtain ⟨parent, position, tokens, call, collects, rfl⟩ := collected blocks member
  exact collects.goesOn (List.forall_mem_nil _) block (List.mem_reverse.mp within)

namespace BlockReplacement

open Token

variable {s : BlockReplacement} {tokens front more : List Token} {token : Token}

theorem blocks_replace (s : BlockReplacement) (token : Token) :
    (s.replace token).2.blocks = s.blocks := by
  unfold replace
  repeat' split
  all_goals rfl

theorem replace_cases (s : BlockReplacement) (token : Token) :
    ((s.replace token).1 = [] ∧ s.replacing.isSome = true ∧
      (s.replace token).2.replacing.isSome = true) ∨
    ((s.replace token).1 = [token] ∧ (s.replace token).2.replacing = none ∧
      (token.isWhitespace = true → s.replacing = none)) ∨
    ∃ name given, token.kind = .tag .openBlock name ∧ s.blocks.find? name = some given ∧
      (s.replace token).1 = token :: given ∧ (s.replace token).2.replacing.isSome = true := by
  obtain ⟨kind, position, raw⟩ := token
  obtain ⟨blocks, depth, replacing⟩ := s
  cases replacing with
  | none =>
      cases kind with
      | tag kind name =>
          cases kind with
          | openBlock =>
              cases found : blocks.find? name with
              | none => exact .inr (.inl (by simp [replace, TagKind.isOpening, found]))
              | some given =>
                  exact .inr (.inr ⟨name, given, rfl, found, by
                    simp [replace, TagKind.isOpening, found]⟩)
          | _ => exact .inr (.inl (by simp [replace, TagKind.isOpening]))
      | _ => exact .inr (.inl (by simp [replace]))
  | some block =>
      cases kind with
      | tag kind name =>
          cases kind with
          | close =>
              by_cases ends : block.2 = depth ∧ block.1 = name
              · exact .inr (.inl (by simp [replace, ends, isWhitespace]))
              · exact .inl (by simp [replace, ends])
          | _ => exact .inl (by simp [replace, TagKind.isOpening])
      | eof => exact .inr (.inl (by simp [replace, isWhitespace]))
      | _ => exact .inl (by simp [replace])

theorem isEof_replaceAll (collected : s.blocks.AreCollected)
    (within : ∀ token ∈ tokens, token.isEof = false) :
    ∀ token ∈ s.replaceAll tokens, token.isEof = false := by
  induction tokens generalizing s with
  | nil => exact List.forall_mem_nil _
  | cons token tokens ih =>
      obtain ⟨here, further⟩ := List.forall_mem_cons.mp within
      have later := ih ((s.blocks_replace token).symm ▸ collected) further
      rw [replaceAll_cons]
      refine List.forall_mem_append.mpr ⟨?_, later⟩
      obtain ⟨gone, -⟩ | ⟨kept, -⟩ | ⟨name, given, -, found, filled, -⟩ := s.replace_cases token
      · rw [gone]
        exact List.forall_mem_nil _
      · rw [kept]
        exact List.forall_mem_singleton.mpr here
      · rw [filled]
        exact List.forall_mem_cons.mpr ⟨here, collected.isEof found⟩

theorem endsOnce_replaceAll (collected : s.blocks.AreCollected) (ends : EndsOnce tokens) :
    EndsOnce (s.replaceAll tokens) := by
  obtain ⟨body, ending, rfl, isEof, within⟩ := ends
  have kept : (s.after body).replaceAll [ending] = [ending] := by
    simp [replaceAll, replace, isEof_iff.mp isEof]
  exact ⟨s.replaceAll body, ending, by rw [replaceAll_append, kept], isEof,
    isEof_replaceAll collected within⟩

theorem replaceAll_concat (idle : (s.after (front ++ [token])).replacing = none) :
    s.replaceAll (front ++ [token]) = s.replaceAll front ++ [token] ∧
      (token.isWhitespace = true → (s.after front).replacing = none) := by
  have same : s.after (front ++ [token]) = ((s.after front).replace token).2 := after_append ..
  have whole : s.replaceAll (front ++ [token]) =
      s.replaceAll front ++ ((s.after front).replace token).1 := by
    rw [replaceAll_append]
    simp [replaceAll]
  rw [same] at idle
  obtain ⟨-, -, replacing⟩ | ⟨kept, -, blank⟩ | ⟨-, -, -, -, -, replacing⟩ :=
    (s.after front).replace_cases token
  · simp [idle] at replacing
  · exact ⟨by rw [whole, kept], blank⟩
  · simp [idle] at replacing

theorem opensBlank_replaceAll (idle : (s.after front).replacing = none) :
    opensBlank (s.replaceAll front) = opensBlank front := by
  obtain rfl | ⟨front, last, rfl⟩ := front.eq_nil_or_concat'
  · rfl
  · obtain ⟨kept, blank⟩ := replaceAll_concat idle
    rw [kept, opensBlank, opensBlank, List.getLast?_concat, List.getLast?_concat, Option.all_some,
      Option.all_some, List.dropLast_concat, List.dropLast_concat]
    cases space : last.isWhitespace with
    | false => simp
    | true =>
        have alike : (s.replaceAll front).getLast? = front.getLast? := by
          obtain rfl | ⟨front, token, rfl⟩ := front.eq_nil_or_concat'
          · rfl
          · rw [(replaceAll_concat (blank space)).1, List.getLast?_concat, List.getLast?_concat]
        rw [alike]

theorem closesBlank_replaceAll (idle : s.replacing = none) :
    closesBlank (s.replaceAll more) = closesBlank more := by
  have first : ∀ {s : BlockReplacement}, s.replacing = none → ∀ token rest,
      ∃ behind, s.replaceAll (token :: rest) = token :: behind ∧
        (token.isWhitespace = true → ∃ next : BlockReplacement, next.replacing = none ∧
          behind = next.replaceAll rest) := by
    intro s idle token rest
    rw [replaceAll_cons]
    obtain ⟨-, replacing, -⟩ | ⟨kept, still, -⟩ | ⟨name, given, kind, -, filled, -⟩ :=
      s.replace_cases token
    · simp [idle] at replacing
    · exact ⟨_, by rw [kept]; rfl, fun _ => ⟨_, still, rfl⟩⟩
    · refine ⟨_, by rw [filled]; rfl, fun space => ?_⟩
      rw [isWhitespace, kind] at space
      cases space
  cases more with
  | nil => rfl
  | cons token rest =>
      obtain ⟨behind, same, further⟩ := first idle token rest
      rw [same, closesBlank, closesBlank, List.head?_cons, List.head?_cons, Option.any_some,
        Option.any_some, List.tail_cons, List.tail_cons]
      cases space : token.isWhitespace with
      | false => simp
      | true =>
          obtain ⟨next, idle, rfl⟩ := further space
          cases rest with
          | nil => rfl
          | cons second rest =>
              obtain ⟨behind, same, -⟩ := first idle second rest
              rw [same, List.head?_cons, List.head?_cons]

theorem blocks_after (s : BlockReplacement) (tokens : List Token) :
    (s.after tokens).blocks = s.blocks := by
  induction tokens generalizing s with
  | nil => rfl
  | cons token tokens ih => exact (ih _).trans (s.blocks_replace token)

theorem replaceAll_section {opening closing : Token} {inner behind : List Token}
    (outside : (s.after front).replacing = none)
    (ungiven : ∀ token ∈ opening :: (inner ++ [closing]), ∀ name,
      token.kind = .tag .openBlock name → s.blocks.find? name = none) :
    ∃ after, s.replaceAll (front ++ opening :: (inner ++ closing :: behind)) =
        s.replaceAll front ++ opening :: (inner ++ closing :: after) ∧
      between (s.replaceAll front) opening inner closing after =
        between front opening inner closing behind := by
  obtain ⟨atOpening, within⟩ := List.forall_mem_cons.mp ungiven
  obtain ⟨inside, atClosing⟩ := List.forall_mem_append.mp within
  have stays {part : List Token} {front : List Token} (idle : (s.after front).replacing = none)
      (ungiven : ∀ token ∈ part, ∀ name, token.kind = .tag .openBlock name →
        s.blocks.find? name = none) :
      (∀ more, (s.after front).replaceAll (part ++ more) =
        part ++ (s.after (front ++ part)).replaceAll more) ∧
        (s.after (front ++ part)).replacing = none := by
    obtain ⟨same, -, still⟩ :=
      replaceAll_ungiven (s := s.after front) (by rwa [blocks_after]) idle
    exact ⟨fun more => by rw [replaceAll_append, same, after_append], by rwa [after_append]⟩
  obtain ⟨first, atInner⟩ := stays outside (List.forall_mem_singleton.mpr atOpening)
  obtain ⟨second, atEnd⟩ := stays atInner inside
  obtain ⟨third, behindEnd⟩ := stays atEnd atClosing
  have shown : (s.after (front ++ [opening])).replaceAll (inner ++ closing :: behind) =
      inner ++ closing :: (s.after (front ++ [opening] ++ inner ++ [closing])).replaceAll
        behind := by
    have atTag := third behind
    rw [List.singleton_append, List.singleton_append] at atTag
    rw [second, atTag]
  have whole :
      s.replaceAll (front ++ opening :: inner) = s.replaceAll front ++ opening :: inner := by
    have here := first inner
    have there := second []
    rw [List.append_nil] at there
    rw [List.singleton_append, List.singleton_append, there] at here
    rw [replaceAll_append, here]
    simp [replaceAll]
  refine ⟨(s.after (front ++ [opening] ++ inner ++ [closing])).replaceAll behind, ?_, ?_⟩
  · have here := first (inner ++ closing :: behind)
    rw [List.singleton_append, List.singleton_append, shown] at here
    rw [replaceAll_append, here]
  · have opens : isAlone (s.replaceAll front)
        (inner ++ closing ::
          (s.after (front ++ [opening] ++ inner ++ [closing])).replaceAll behind) =
        isAlone front (inner ++ closing :: behind) := by
      rw [isAlone, isAlone, opensBlank_replaceAll outside, ← shown, closesBlank_replaceAll atInner]
    have closes : isAlone (s.replaceAll front ++ opening :: inner)
        ((s.after (front ++ [opening] ++ inner ++ [closing])).replaceAll behind) =
        isAlone (front ++ opening :: inner) behind := by
      rw [List.append_assoc front, List.singleton_append] at atEnd
      rw [isAlone, isAlone, ← whole, opensBlank_replaceAll atEnd, closesBlank_replaceAll behindEnd]
    rw [between, between, opens, closes]

end BlockReplacement

namespace Compile

open LineClassifier Token BlockReplacement

variable {setting : Setting} {nested? : Option Nested} {body : Body} {events : List Event}
  {last : Bool} {front inner after : List Token} {closing : Token} {endName : String}

/-- That a lambda section is one of the template's own: what is in front of its tag stands for
tokens of the template, and so does the tag. -/
structure LambdaOpening.IsOwn (o : LambdaOpening setting nested? body) (front behind : List Token) :
    Prop where
  read : tokenize body.stack.top.name body.source = .ok (front ++ o.tag :: behind)
  inFront : o.front = (start body.blocks).replaceAll front
  outside : ((start body.blocks).after front).replacing = none

/-- A lambda does not see the blocks that are given around its section. -/
theorem LambdaOpening.called_own (o : LambdaOpening setting nested? body)
    (own : o.IsOwn front (inner ++ closing :: after)) (collected : body.blocks.AreCollected)
    (ungiven : ∀ token ∈ inner, ∀ name, token.kind = .tag .openBlock name →
      body.blocks.find? name = none)
    (balanced : IsBalanced inner) (closes : closing.kind = .tag .close endName)
    (compiled : compileWith setting nested? body = .ok (events, last)) :
    ∃ leading call template more,
      events = o.events ++ (leading ++ .lambda call template :: more) ∧
      (∀ event ∈ leading, event = .call (.literal body.indent)) ∧ call.name = o.name ∧
      call.body = text (between front o.tag inner closing after) := by
  have plain : ∀ token ∈ o.tag :: (inner ++ [closing]), ∀ name,
      token.kind = .tag .openBlock name → (start body.blocks).blocks.find? name = none := by
    refine List.forall_mem_cons.mpr ⟨fun name kind => ?_,
      List.forall_mem_append.mpr ⟨ungiven, List.forall_mem_singleton.mpr fun name kind => ?_⟩⟩
    · cases o.isSection.symm.trans kind
    · cases closes.symm.trans kind
  obtain ⟨behind, replaced, same⟩ := replaceAll_section own.outside plain
  have ends :=
    endsOnce_replaceAll (s := start body.blocks) collected (endsOnce_of_tokenize own.read)
  rw [replaced, ← own.inFront] at ends
  have grouped :
    groups body = .ok (groupsOf (o.front ++ o.tag :: (inner ++ closing :: behind))) := by
    rw [groups, own.read, own.inFront, ← replaced]
  have rest : o.rest = inner ++ closing :: behind :=
    (List.cons.inj (List.append_cancel_left (o.tokens_of_groups ends grouped))).2.symm
  rw [← rest] at ends grouped
  rw [← same, ← own.inFront]
  exact o.called ends grouped rest balanced closes compiled

theorem called_own_behind_block :
    ∃ (setting : Setting) (body : Body)
      (o : LambdaOpening setting (some (compileBody setting 0)) body)
      (front inner after : List Token) (closing : Token) (events : List Event) (last : Bool),
      body.source =
          "{{$b}}x{{/b}}\n{{#f}}\ny{{/f}}" ∧
        o.IsOwn front (inner ++ closing :: after) ∧ body.blocks.AreCollected ∧
        (body.blocks.find? "b").map text = some "z" ∧
        (∀ token ∈ inner, ∀ name, token.kind = .tag .openBlock name →
          body.blocks.find? name = none) ∧
        IsBalanced inner ∧ closing.kind = .tag .close "f" ∧
        compileWith setting (some (compileBody setting 0)) body = .ok (events, last) ∧
        text (between front o.tag inner closing after) = "y" ∧
        ∃ leading call template more,
          events = o.events ++ (leading ++ .lambda call template :: more) ∧
          (∀ event ∈ leading, event = .call (.literal body.indent)) ∧ call.name = o.name ∧
          call.body = text (between front o.tag inner closing after) := by
  let schema := (Schema.ofRoot (.struct "Page")).withStruct "Page" ⟨[], [("f", .raw)]⟩
  let setting : Setting := ⟨schema, .ofCatalog [], .default⟩
  let caller (column : Nat) : Position := ⟨"main", 1, column, "{{<p}}{{$b}}z{{/b}}{{/p}}"⟩
  let given : Token := ⟨.text "z", caller 13, "z"⟩
  let opened : Token := ⟨.tag .openBlock "b", caller 7, "{{$b}}"⟩
  let closed : Token := ⟨.tag .close "b", caller 14, "{{/b}}"⟩
  let body : Body :=
    { Body.root schema ⟨"p",
        "{{$b}}x{{/b}}\n{{#f}}\ny{{/f}}"⟩ with
      blocks := [[⟨"b", [given]⟩]] }
  let first (column : Nat) : Position := ⟨"p", 1, column, "{{$b}}x{{/b}}"⟩
  let second (column : Nat) : Position := ⟨"p", 2, column, "{{#f}}"⟩
  let third (column : Nat) : Position := ⟨"p", 3, column, "y{{/f}}"⟩
  let block : Token := ⟨.tag .openBlock "b", first 1, "{{$b}}"⟩
  let content : Token := ⟨.text "x", first 7, "x"⟩
  let blockEnd : Token := ⟨.tag .close "b", first 8, "{{/b}}"⟩
  let newline : Token := ⟨.newline .lf, first 14, "\n"⟩
  let opening : Token := ⟨.tag .openSection "f", second 1, "{{#f}}"⟩
  let ignored : Token := ⟨.newline .lf, second 7, "\n"⟩
  let inside : Token := ⟨.text "y", third 1, "y"⟩
  let closing : Token := ⟨.tag .close "f", third 2, "{{/f}}"⟩
  let ending : Token := ⟨.eof, third 8, ""⟩
  let o : LambdaOpening setting (some (compileBody setting 0)) body :=
    { earlier := [single block, single given, single blockEnd, single newline]
      pre := []
      tag := opening
      post := [⟨ignored, .ignore⟩]
      later := [[⟨inside, .normal⟩, ⟨closing, .normal⟩], single ending]
      name := "f"
      decl := .raw
      names := .root
      events := [.call (.enterBlock "b"), .call (.literal "z"), .call .exitBlock,
        .call (.literal "\n")]
      state := .start body
      grouped := by decide +kernel
      isSection := rfl
      reached := rfl
      normal := rfl
      means := by decide +kernel }
  have own : o.IsOwn [block, content, blockEnd, newline]
    ([ignored, inside] ++ closing :: [ending]) :=
    ⟨by decide +kernel, rfl, rfl⟩
  have collects : ParentCall.Collects (.start "p" (caller 1)) [opened, given, closed]
      ⟨"p", caller 1, ["p"], false, [⟨"b", [given]⟩]⟩ :=
    .cons rfl (.cons rfl (.cons rfl .nil))
  have collected : body.blocks.AreCollected :=
    List.forall_mem_singleton.mpr ⟨_, _, _, _, collects, rfl⟩
  have ungiven : ∀ token ∈ [ignored, inside], ∀ name, token.kind = .tag .openBlock name →
      body.blocks.find? name = none := by
    simp [ignored, inside]
  have succeeds : (compileWith setting (some (compileBody setting 0)) body).isOk = true := by
    decide +kernel
  obtain ⟨⟨events, last⟩, compiled⟩ := eq_ok_of_isOk succeeds
  exact ⟨setting, body, o, _, _, _, closing, events, last, rfl, own, collected, by decide +kernel,
    ungiven, by decide, rfl, compiled, by decide +kernel,
    o.called_own own collected ungiven (by decide) rfl compiled⟩

/-- The content given for a block that stands in a lambda section goes to the lambda. -/
theorem block_given_to_lambda :
    ∃ (schema : Schema) (library : Library) (call other : LambdaCall),
      library "p" (.root "main") =
          .ok ⟨"p", "{{#f}}{{$b}}x{{/b}}{{/f}}"⟩ ∧
        (compile schema library .default
            ⟨"main", "{{<p}}{{$b}}y{{/b}}{{/p}}"⟩).map
            (List.map Event.seen) =
          .ok [.inl (.enterPartial "p"), .inr call, .inl .exitPartial] ∧
        (compile schema library .default
            ⟨"main", "{{<p}}{{$b}}z{{/b}}{{/p}}"⟩).map
            (List.map Event.seen) =
          .ok [.inl (.enterPartial "p"), .inr other, .inl .exitPartial] ∧
        call.body ≠ other.body := by
  let schema := (Schema.ofRoot (.struct "Page")).withStruct "Page" ⟨[], [("f", .raw)]⟩
  let library := Library.ofCatalog
    [("p", "{{#f}}{{$b}}x{{/b}}{{/f}}")]
  let call (body : String) : LambdaCall := ⟨"f", body, .var "data", .raw, .raw, ""⟩
  exact ⟨schema, library, call "{{$b}}y{{/b}}",
    call "{{$b}}z{{/b}}", rfl, eq_ok_of_toOption (by decide +kernel),
    eq_ok_of_toOption (by decide +kernel), by decide⟩

end Compile

end Stencil
