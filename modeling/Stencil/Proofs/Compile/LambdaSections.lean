import Stencil.Proofs.Compile.Alike
import Stencil.Proofs.Token.Depth
import Stencil.Proofs.Token.InGroup

/-!
Lambda sections. Main statement: what stands between the tags of a section is kept as text, tags and
all, up to the first end tag that is not of a construct within, and goes to the lambda.
-/

namespace Stencil

def Event.seen : Event → Call ⊕ LambdaCall
  | .call made => .inl made
  | .lambda made _ => .inr made

namespace Compile

open LineClassifier Token

def LambdaSection.add (held : LambdaSection) (text : String) (depth : Nat) : LambdaSection :=
  { held with body := held.body ++ text, depth }

def State.reading (s : State) (held : LambdaSection) : State := { s with mode := .lambda held }

variable {setting : Setting} {nested? : Option Nested} {body : Body} {s : State} {t : LineToken}
  {held : LambdaSection} {depth : Nat} {closing standalone : Bool} {group : LineGroup}

theorem LambdaSection.add_nil (same : held.depth = depth) :
    held.add (Token.text []) depth = held := by
  have unchanged : held.body ++ Token.text [] = held.body := String.append_empty
  rw [add, unchanged, ← same]

theorem LambdaSection.add_add (held : LambdaSection) (front more : List Token) (middle last : Nat) :
    (held.add (Token.text front) middle).add (Token.text more) last =
      held.add (Token.text (front ++ more)) last := by
  rw [text_append, add, add, add, String.append_assoc]

theorem readToken_keep (next : t.token.depthAfter? held.depth = some depth)
    (written : held.opening = true → t.role ≠ .ignore) :
    readToken setting nested? body false standalone (s.reading held) t =
      .ok ([], s.reading (held.add t.token.raw depth)) := by
  have kept : (held.opening && decide (t.role = .ignore)) = false := by
    cases opening : held.opening with
    | false => rfl
    | true => simpa using written opening
  dsimp only [readToken, State.reading]
  unfold readLambda
  unfold Token.depthAfter? at next
  rw [if_neg (by simp [kept])]
  cases found : t.token.kind with
  | tag kind name =>
      simp only [found] at next
      cases kind with
      | close =>
          dsimp only at next ⊢
          split at next
          · cases next
          · next inner =>
              rw [if_pos inner, Option.some.inj next]
              rfl
      | _ =>
          obtain rfl := Option.some.inj next
          rfl
  | eof =>
      rw [found] at next
      cases next
  | _ =>
      rw [found] at next
      obtain rfl := Option.some.inj next
      rfl

theorem runAll_keep {tokens : List LineToken}
    (next : (tokens.map LineToken.token).foldlM depthAfter? held.depth = some depth)
    (written : held.opening = true → ∀ t ∈ tokens, t.role ≠ .ignore) :
    runAll (readToken setting nested? body false standalone) (s.reading held) tokens =
      .ok ([], s.reading (held.add (text (tokens.map LineToken.token)) depth)) := by
  induction tokens generalizing held with
  | nil =>
      rw [List.map_nil, LambdaSection.add_nil (Option.some.inj next)]
      rfl
  | cons t tokens ih =>
      rw [List.map_cons, List.foldlM_cons] at next
      obtain ⟨middle, here, further⟩ := Option.bind_eq_some_iff.mp next
      have rest := @ih (held.add t.token.raw middle) further fun opening t member =>
        written opening t (List.mem_cons_of_mem _ member)
      rw [runAll, readToken_keep here fun opening => written opening t (by simp)]
      simp only [ok_bind, rest, pure_eq_ok, List.nil_append]
      rw [List.map_cons, text_cons, LambdaSection.add, LambdaSection.add, LambdaSection.add,
        String.append_assoc]

theorem closesLambda_of_mem {token : Token} (member : LineToken.of .normal token ∈ group)
    (next : token.depthAfter? held.depth = some depth) :
    closesLambda (.lambda held) group = false := by
  by_contra flagged
  rw [Bool.not_eq_false, closesLambda, Bool.and_eq_true, decide_eq_true_eq, List.all_eq_true]
    at flagged
  obtain ⟨outermost, only⟩ := flagged
  have counted := only _ member
  rw [Bool.or_eq_true, decide_eq_true_eq, decide_eq_true_eq] at counted
  obtain other | closes := counted
  · have isEof : token.isEof = true := by
      by_contra inside
      exact other (by simp [LineToken.of, eq_false_of_ne_true inside])
    rw [depthAfter?_of_isEof isEof] at next
    cases next
  · have sameKind : token.kind = .tag .close held.name := closes
    rw [outermost, depthAfter?_of_close sameKind] at next
    cases next

theorem closesLambda_within (formed : Formed group)
    (next : (group.map LineToken.token).foldlM depthAfter? held.depth = some depth) :
    closesLambda (.lambda held) group = false := by
  cases formed with
  | single token | pair token _ =>
      obtain ⟨middle, first, -⟩ := Option.bind_eq_some_iff.mp next
      exact closesLambda_of_mem (List.mem_cons_self ..) first
  | line line =>
      rw [map_token_line, StandaloneLine.tokens, List.foldlM_append,
        depthAfter?_of_spaces line.before_isWhitespace] at next
      obtain ⟨start, same, next⟩ := Option.bind_eq_some_iff.mp next
      obtain rfl := Option.some.inj same
      obtain ⟨middle, tag, -⟩ := Option.bind_eq_some_iff.mp next
      exact closesLambda_of_mem (List.mem_append_right _ (List.mem_cons_self ..)) tag

theorem readGroup_keep (formed : Formed group)
    (next : (group.map LineToken.token).foldlM depthAfter? held.depth = some depth)
    (inside : held.opening = false) :
    readGroup setting nested? body (s.reading held) group =
      .ok ([], s.reading (held.add (text (group.map LineToken.token)) depth)) := by
  have written : held.opening = true → ∀ t ∈ group, t.role ≠ .ignore := by simp [inside]
  have apart : closesLambda (s.reading held).mode group = false := closesLambda_within formed next
  rw [readGroup, apart]
  simp only [Bool.false_and]
  rw [runAll_keep next written]
  simp only [ok_bind, pure_eq_ok, endGroup, State.reading, LambdaSection.add, inside]

def endLambda (setting : Setting) (nested? : Option Nested) (body : Body) (s : State)
    (held : LambdaSection) (standalone : Bool) (name : String) (position : Position) : Outcome :=
  if name ≠ held.name then
    .error (nestingError body (s.reading held) (.mismatchedClose held.name name) position)
  else callLambda setting nested? body { s with mode := .normal } held standalone

variable {c : Token} {name : String} {pre post inside behind : List LineToken}
  {lines : List LineGroup}

theorem readToken_end (closes : c.kind = .tag .close name) (outermost : held.depth = 0) :
    readToken setting nested? body closing standalone (s.reading held) (.of .normal c) =
      endLambda setting nested? body s held standalone name c.position := by
  have role : (LineToken.of .normal c).role = .normal :=
    LineToken.role_of_tag (by rw [Token.tag?, closes]; rfl)
  have kind : (LineToken.of .normal c).token.kind = .tag .close name := closes
  simp only [readToken, State.reading, readLambda, role, kind, outermost, reduceCtorEq,
    decide_false, Bool.and_false, Bool.false_eq_true, if_false, ne_eq, not_true_eq_false, endLambda]
  rfl

theorem endLambda_add (other : name ≠ held.name) (text : String) (position : Position) :
    endLambda setting nested? body s (held.add text 0) standalone name position =
      endLambda setting nested? body s held standalone name position := by
  have otherStill : name ≠ (held.add text 0).name := other
  rw [endLambda, endLambda, if_pos other, if_pos otherStill]
  rfl

def finishGroup (setting : Setting) (nested? : Option Nested) (body : Body)
    (closing standalone : Bool) (outcome : Outcome) (post : List LineToken) : Outcome := do
  let (events, s) ← outcome
  let (more, s) ← runAll (readToken setting nested? body closing standalone) s post
  return (events ++ more, endGroup s)

def finish (setting : Setting) (nested? : Option Nested) (body : Body) (closing standalone : Bool)
    (outcome : Outcome) (post : List LineToken) (later : List LineGroup) : Outcome := do
  let (events, s) ← finishGroup setting nested? body closing standalone outcome post
  let (more, s) ← runAll (readGroup setting nested? body) s later
  return (events ++ more, s)

theorem finish_singleton (s : State) (t : LineToken) (later : List LineGroup) :
    finish setting nested? body closing standalone (.ok ([], s)) [t] later =
      finish setting nested? body closing standalone
        (readToken setting nested? body closing standalone s t) [] later := by
  rw [finish, finish, finishGroup, finishGroup]
  simp only [ok_bind, runAll]
  cases readToken setting nested? body closing standalone s t <;> simp

theorem runAll_concat {α : Type} {step : State → α → Outcome} {start middle : State}
    {front : List α} {item : α} (silent : runAll step start front = .ok ([], middle)) :
    runAll step start (front ++ [item]) = step middle item := by
  rw [runAll_append, silent]
  simp only [ok_bind, runAll]
  cases step middle item with
  | error problem => rfl
  | ok result =>
      simp only [ok_bind, pure_eq_ok, List.append_nil]
      rfl

theorem readGroup_around {start : State} {outcome : Outcome}
    (flag : closesLambda start.mode (pre ++ t :: post) = closing)
    (here : runAll (readToken setting nested? body closing
      (closing && 1 < (pre ++ t :: post).length)) start (pre ++ [t]) = outcome) :
    readGroup setting nested? body start (pre ++ t :: post) =
      finishGroup setting nested? body closing (closing && 1 < (pre ++ t :: post).length) outcome
        post := by
  have spelled : pre ++ t :: post = (pre ++ [t]) ++ post := List.append_cons ..
  rw [readGroup, flag, finishGroup, ← here]
  conv_lhs => rw [spelled]
  rw [runAll_append, ← spelled]
  simp only [bind_assoc]
  rfl

theorem readToken_skip {token : Token} (space : token.isWhitespace = true)
    (opened : held.opening = false) :
    readToken setting nested? body true standalone (s.reading held) (.of .indent token) =
      .ok ([], s.reading held) := by
  obtain ⟨kind, position, raw⟩ := token
  cases kind with
  | whitespace text => simp [readToken, State.reading, readLambda, LineToken.of, opened]
  | _ => cases space

theorem closesLambda_of_line {line : StandaloneLine}
    (closes : line.tag.kind = .tag .close held.name) (outermost : held.depth = 0) :
    closesLambda (.lambda held) line.group = true := by
  have tag : (LineToken.of .normal line.tag).token.kind = .tag .close held.name := closes
  simp only [closesLambda, outermost, decide_true, Bool.true_and, StandaloneLine.group,
    List.all_append, List.all_cons, Bool.and_eq_true, List.all_eq_true, Bool.or_eq_true,
    decide_eq_true_eq, tag, or_true, true_and]
  exact ⟨fun t member => .inl (LineToken.role_ne_of_mem (by decide) (by decide) t member),
    fun t member => .inl (LineToken.role_ne_of_mem (by decide) (by decide) t member)⟩

def endsAlone (name : String) (pre post : List LineToken) : Bool :=
  pre.all (·.role = .indent) && !post.isEmpty &&
    post.all fun t => t.role ≠ .normal || t.token.kind = .tag .close name

theorem closesLambda_eq_endsAlone (closes : c.kind = .tag .close held.name)
    (outermost : held.depth = 0) (indents : ∀ t ∈ pre, t.role = .indent)
    (filled : pre ≠ [] → post ≠ []) :
    (closesLambda (.lambda held) (pre ++ .of .normal c :: post) &&
      1 < (pre ++ .of .normal c :: post).length) = endsAlone held.name pre post := by
  have skipped : (pre.all fun t => decide (t.role ≠ .normal) ||
      decide (t.token.kind = .tag .close held.name)) = true := by
    rw [List.all_eq_true]
    intro t member
    simp [indents t member]
  have same : pre.all (fun t => decide (t.role = .indent)) = true := by simpa using indents
  have tag : (LineToken.of .normal c).token.kind = .tag .close held.name := closes
  rw [closesLambda, outermost, List.all_append, skipped, List.all_cons, tag, endsAlone, same]
  cases post with
  | nil =>
      obtain rfl : pre = [] := by
        by_contra some
        exact filled some rfl
      simp
  | cons t post =>
      have several : 1 < (pre ++ .of .normal c :: t :: post).length := by
        rw [List.length_append, List.length_cons, List.length_cons]
        omega
      rw [decide_eq_true several]
      simp

theorem readGroup_end (formed : Formed (pre ++ .of .normal c :: post))
    (closes : c.kind = .tag .close name)
    (next : (pre.map LineToken.token).foldlM depthAfter? held.depth = some 0)
    (opened : held.opening = false) :
    ∃ closing standalone, (name = held.name → standalone = endsAlone name pre post) ∧
      readGroup setting nested? body (s.reading held) (pre ++ .of .normal c :: post) =
        finishGroup setting nested? body closing standalone (endLambda setting nested? body s
          (held.add (text ((pre.rdropWhile (·.role = .indent)).map LineToken.token)) 0) standalone
          name c.position) post := by
  have standaloneTag : c.isStandalone = true := by rw [Token.isStandalone, closes]; rfl
  -- Nothing of the section is in the group if its end tag comes first.
  have first {post : List LineToken} (outermost : held.depth = 0) :
      ∃ closing standalone, (name = held.name → standalone = endsAlone name [] post) ∧
        readGroup setting nested? body (s.reading held) ([] ++ .of .normal c :: post) =
        finishGroup setting nested? body closing standalone
          (endLambda setting nested? body s held standalone name c.position) post := by
    refine ⟨_, _, ?_, readGroup_around rfl
      ((runAll_concat rfl).trans (readToken_end closes outermost))⟩
    rintro rfl
    exact closesLambda_eq_endsAlone closes outermost (List.forall_mem_nil _) (absurd rfl)
  have empty : List.rdropWhile (fun t : LineToken => decide (t.role = .indent)) [] = [] := rfl
  obtain ⟨_ | token, rfl, rfl⟩ | ⟨following, -, rfl, rfl⟩ | ⟨line, rfl, rfl, rfl⟩ :=
    formed.around standaloneTag
  · have outermost : held.depth = 0 := Option.some.inj next
    rw [Option.toList_none, List.map_nil, empty, List.map_nil, LambdaSection.add_nil outermost]
    exact first outermost
  · obtain ⟨middle, here, -⟩ := Option.bind_eq_some_iff.mp next
    have kept : ([LineToken.of .normal token].rdropWhile fun t => decide (t.role = .indent)) =
        [.of .normal token] :=
      List.rdropWhile_concat_neg _ [] _
        (by simpa using LineToken.role_ne (by decide) (by decide) token)
    rw [Option.toList_some, List.map_singleton, kept]
    refine ⟨_, _, fun _ => ?_, readGroup_around (closesLambda_of_mem (List.mem_cons_self ..) here)
      ((runAll_concat (runAll_keep next (by simp [opened]))).trans (readToken_end closes rfl))⟩
    simp [endsAlone]
  · have outermost : held.depth = 0 := Option.some.inj next
    rw [empty, List.map_nil, LambdaSection.add_nil outermost]
    exact first outermost
  · have outermost : held.depth = 0 := by
      rw [map_token_map_of, depthAfter?_of_spaces line.before_isWhitespace] at next
      exact Option.some.inj next
    have indent : ∀ t ∈ line.before.toList.map (LineToken.of .indent), t.role = .indent := by
      intro t member
      obtain ⟨token, within, rfl⟩ := List.mem_map.mp member
      have inside := Token.endsLine_of_isWhitespace
        (line.before_isWhitespace token (Option.mem_toList.mp within))
      rw [Token.endsLine, Bool.or_eq_false_iff] at inside
      simp [LineToken.of, inside.2]
    rw [List.rdropWhile_eq_nil_iff.mpr (by simpa using indent), List.map_nil,
      LambdaSection.add_nil outermost]
    cases flag : closesLambda (s.reading held).mode
        (line.before.toList.map (LineToken.of .indent) ++ .of .normal line.tag ::
          (line.after.toList ++ [line.ending]).map (LineToken.of .ignore)) with
    | true =>
        have skipped : ∀ standalone, runAll (readToken setting nested? body true standalone)
            (s.reading held) (line.before.toList.map (LineToken.of .indent)) =
              .ok ([], s.reading held) := by
          intro standalone
          cases before : line.before with
          | none => rfl
          | some blank =>
              rw [Option.toList_some, List.map_singleton, runAll,
                readToken_skip (line.before_isWhitespace blank before) opened]
              rfl
        refine ⟨_, _, ?_, readGroup_around flag
          ((runAll_concat (skipped _)).trans (readToken_end closes outermost))⟩
        rintro rfl
        rw [← flag]
        exact closesLambda_eq_endsAlone closes outermost indent (by simp)
    | false =>
        have other : name ≠ held.name := by
          rintro rfl
          exact Bool.false_ne_true (flag.symm.trans (closesLambda_of_line closes outermost))
        exact ⟨_, _, fun same => absurd same other, readGroup_around flag ((runAll_concat
          (runAll_keep next (by simp [opened]))).trans
            ((readToken_end closes rfl).trans (endLambda_add other _ _)))⟩

theorem runAll_section (setting : Setting) (nested? : Option Nested) (body : Body) (s : State)
    (held : LambdaSection) (formed : ∀ group ∈ lines, Formed group)
    (split : lines.flatten = inside ++ .of .normal c :: behind) (closes : c.kind = .tag .close name)
    (next : (inside.map LineToken.token).foldlM depthAfter? held.depth = some 0)
    (opened : held.opening = false) :
    ∃ closing standalone earlier here post later,
      lines = earlier ++ (here ++ .of .normal c :: post) :: later ∧
      inside = earlier.flatten ++ here ∧ behind = post ++ later.flatten ∧
      (name = held.name → standalone = endsAlone name here post) ∧
      runAll (readGroup setting nested? body) (s.reading held) lines =
        finish setting nested? body closing standalone (endLambda setting nested? body s
          (held.add (text ((inside.rdropWhile (·.role = .indent)).map LineToken.token)) 0)
          standalone name c.position) post later := by
  induction lines generalizing held inside with
  | nil => cases List.append_eq_nil_iff.mp split.symm |>.2
  | cons group lines ih =>
      obtain ⟨here, further⟩ := List.forall_mem_cons.mp formed
      rw [List.flatten_cons] at split
      obtain ⟨more, rfl, rest⟩ | ⟨post, rfl, rfl⟩ := append_eq_append_cons split
      · rw [List.map_append, List.foldlM_append] at next
        obtain ⟨middle, first, next⟩ := Option.bind_eq_some_iff.mp next
        obtain ⟨closing, standalone, earlier, last, post, later,
            placed, within, same, alone, run⟩ :=
          ih (held.add (text (group.map LineToken.token)) middle) further rest next opened
        have joined : (held.add (text (group.map LineToken.token)) middle).add
            (text ((more.rdropWhile (·.role = .indent)).map LineToken.token)) 0 =
            held.add
              (text (((group ++ more).rdropWhile (·.role = .indent)).map LineToken.token)) 0 := by
          rw [rdropWhile_append_of_getLast (by simpa using here.role_getLast), List.map_append,
            LambdaSection.add_add]
        refine ⟨closing, standalone, group :: earlier, last, post, later, ?_, ?_, same, alone, ?_⟩
        · rw [placed, List.cons_append]
        · rw [within, List.flatten_cons, List.append_assoc]
        · rw [runAll, readGroup_keep here first opened]
          simp only [ok_bind, run, joined]
          cases finish setting nested? body closing standalone _ post later <;> rfl
      · obtain ⟨closing, standalone, alone, read⟩ := readGroup_end here closes next opened
        exact ⟨closing, standalone, [], inside, post, lines, rfl, rfl, rfl, alone,
          by rw [runAll, read]; rfl⟩

def LambdaSection.start (name : String) (position : Position) (decl : LambdaDecl) : LambdaSection :=
  ⟨name, position, decl, "", 0, true⟩

variable {decl : LambdaDecl} {names : FreshNames} {position : Position} {opening : Token}
  {sectionName : String}

theorem runAll_skip {tokens : List LineToken} (opened : held.opening = true)
    (ignored : ∀ t ∈ tokens, t.role = .ignore) :
    runAll (readToken setting nested? body closing standalone) (s.reading held) tokens =
      .ok ([], s.reading held) := by
  induction tokens with
  | nil => rfl
  | cons t tokens ih =>
      obtain ⟨here, further⟩ := List.forall_mem_cons.mp ignored
      have skipped : readToken setting nested? body closing standalone (s.reading held) t =
          .ok ([], s.reading held) := by
        simp [readToken, State.reading, readLambda, opened, here]
      rw [runAll, skipped, ok_bind]
      simp only [ih further]
      rfl

theorem runAll_opening (setting : Setting) (nested? : Option Nested) (body : Body) (s : State)
    (standalone : Bool) (sectionName : String) (position : Position) (decl : LambdaDecl)
    (formed : Formed (pre ++ .of .normal opening :: post)) (isTag : opening.isStandalone = true)
    (next : (post.map LineToken.token).foldlM depthAfter? 0 = some depth) :
    ∃ kept : List LineToken,
      runAll (readToken setting nested? body false standalone)
          (s.reading (.start sectionName position decl)) post =
        .ok ([], s.reading ((LambdaSection.start sectionName position decl).add
          (text (kept.map LineToken.token)) depth)) ∧
      (∀ t ∈ kept.getLast?, t.role ≠ .indent) ∧
      ∀ more : List LineToken, (∀ t ∈ more.head?, t.role ≠ .ignore) →
        (post ++ more).dropWhile (·.role = .ignore) = kept ++ more := by
  obtain ⟨-, -, rfl⟩ | ⟨following, -, -, rfl⟩ | ⟨line, -, -, rfl⟩ := formed.around isTag
  · exact ⟨[], runAll_keep next (by simp), by simp, fun more written => dropWhile_of_head written⟩
  · have normal : (LineToken.of .normal following).role ≠ .ignore :=
      LineToken.role_ne (by decide) (by decide) following
    refine ⟨[.of .normal following], runAll_keep next ?_, ?_, ?_⟩
    · simpa using fun _ => normal
    · simpa using LineToken.role_ne (by decide) (by decide) following
    · exact fun more _ => List.dropWhile_cons_of_neg (by simpa using normal)
  · rw [map_token_map_of] at next
    have within := isEof_of_foldlM next
    have ignored : ∀ t ∈ (line.after.toList ++ [line.ending]).map (LineToken.of .ignore),
        t.role = .ignore := by
      intro t member
      obtain ⟨token, here, rfl⟩ := List.mem_map.mp member
      simp [LineToken.of, within token here]
    have newline : line.ending.isNewline = true := by
      have endsLine := line.ending_endsLine
      rwa [Token.endsLine, within line.ending (by simp), Bool.or_false] at endsLine
    obtain rfl : 0 = depth := by
      rw [List.foldlM_append, depthAfter?_of_spaces line.after_isWhitespace] at next
      have last := next
      simp only [Option.bind_eq_bind, Option.bind_some, List.foldlM_cons, List.foldlM_nil,
        depthAfter?_of_isNewline newline] at last
      exact Option.some.inj last
    refine ⟨[], ?_, by simp, fun more written => ?_⟩
    · have outermost : (LambdaSection.start sectionName position decl).depth = 0 := rfl
      rw [List.map_nil, LambdaSection.add_nil outermost]
      exact runAll_skip rfl ignored
    · rw [List.dropWhile_append_of_pos fun t member => by simpa using ignored t member,
        dropWhile_of_head written]
      rfl

theorem finish_opening (setting : Setting) (nested? : Option Nested) (body : Body) (s : State)
    (sectionName : String) (position : Position) (decl : LambdaDecl)
    (formed : Formed (pre ++ .of .normal opening :: post)) (isTag : opening.isStandalone = true)
    (next : (post.map LineToken.token).foldlM depthAfter? 0 = some depth) :
    ∃ kept : List LineToken,
      (∀ lines, finish setting nested? body false false
          (.ok ([], s.reading (.start sectionName position decl))) post lines =
        runAll (readGroup setting nested? body) (s.reading
          ⟨sectionName, position, decl, text (kept.map LineToken.token), depth, false⟩) lines) ∧
      (∀ t ∈ kept.getLast?, t.role ≠ .indent) ∧
      ∀ more : List LineToken, (∀ t ∈ more.head?, t.role ≠ .ignore) →
        (post ++ more).dropWhile (·.role = .ignore) = kept ++ more := by
  obtain ⟨kept, opens, last, dropped⟩ :=
    runAll_opening setting nested? body s false sectionName position decl formed isTag next
  refine ⟨kept, fun lines => ?_, last, dropped⟩
  have started : endGroup (s.reading ((LambdaSection.start sectionName position decl).add
      (text (kept.map LineToken.token)) depth)) =
      s.reading ⟨sectionName, position, decl, text (kept.map LineToken.token), depth, false⟩ := by
    simp [endGroup, State.reading, LambdaSection.add, LambdaSection.start]
  rw [finish, finishGroup, ok_bind]
  simp only [opens, ok_bind, pure_eq_ok, List.nil_append, started]
  exact bind_pure _

theorem finish_section (setting : Setting) (nested? : Option Nested) (body : Body) (s : State)
    (sectionName : String) (position : Position) (decl : LambdaDecl)
    (formed : Formed (pre ++ .of .normal opening :: post))
    (isTag : opening.isStandalone = true) (formedLater : ∀ group ∈ lines, Formed group)
    (split : post ++ lines.flatten = inside ++ .of .normal c :: behind)
    (closes : c.kind = .tag .close name) (balanced : IsBalanced (inside.map LineToken.token)) :
    ∃ closing standalone earlier here rest later,
      (pre ++ .of .normal opening :: post) :: lines =
        earlier ++ (here ++ .of .normal c :: rest) :: later ∧
      earlier.flatten ++ here = pre ++ .of .normal opening :: inside ∧
      behind = rest ++ later.flatten ∧
      (name = sectionName → standalone = endsAlone name here rest) ∧
      finish setting nested? body false false
        (.ok ([], s.reading (.start sectionName position decl))) post lines =
        finish setting nested? body closing standalone
          (endLambda setting nested? body s
            ⟨sectionName, position, decl, text
              (((inside.dropWhile (·.role = .ignore)).rdropWhile (·.role = .indent)).map
                LineToken.token), 0, false⟩ standalone name c.position) rest later := by
  obtain ⟨more, rfl, rest⟩ | ⟨rest, rfl, rfl⟩ := append_eq_append_cons split
  · rw [IsBalanced, List.map_append, List.foldlM_append] at balanced
    obtain ⟨depth, first, balanced⟩ := Option.bind_eq_some_iff.mp balanced
    obtain ⟨kept, opens, last, dropped⟩ :=
      finish_opening setting nested? body s sectionName position decl formed isTag first
    obtain ⟨closing, standalone, earlier, here, rest', later, placed, within, rfl, alone, run⟩ :=
      runAll_section setting nested? body s
        ⟨sectionName, position, decl, text (kept.map LineToken.token), depth, false⟩
        formedLater rest closes balanced rfl
    have written : ∀ t ∈ more.head?, t.role ≠ .ignore := by
      intro t head
      refine role_head_flatten formedLater t ?_
      obtain ⟨more, rfl⟩ := List.head?_eq_some_iff.mp head
      rw [rest]
      rfl
    have joined : (text (kept.map LineToken.token)) ++
        text ((more.rdropWhile (·.role = .indent)).map LineToken.token) =
        text ((((post ++ more).dropWhile (·.role = .ignore)).rdropWhile (·.role = .indent)).map
          LineToken.token) := by
      rw [dropped more written, rdropWhile_append_of_getLast (by simpa using last), List.map_append,
        text_append]
    refine ⟨closing, standalone, (pre ++ .of .normal opening :: post) :: earlier, here, rest',
      later, by rw [placed, List.cons_append], by simp [within], rfl, alone, ?_⟩
    rw [opens, run, ← joined]
    rfl
  · have isEnd : c.isStandalone = true := by
      rw [Token.isStandalone, closes]
      rfl
    obtain ⟨rfl, rfl, rfl⟩ := formed.eq_nil_of_tags isTag isEnd
    have here : readToken setting nested? body false false
        (s.reading (.start sectionName position decl)) (.of .normal c) =
        endLambda setting nested? body s ⟨sectionName, position, decl, text [], 0, false⟩ false
          name c.position := readToken_end closes rfl
    refine ⟨false, false, [], [.of .normal opening], [], lines, rfl, rfl, rfl,
      fun _ => by simp [endsAlone], ?_⟩
    rw [List.nil_append, finish_singleton, here]
    rfl

theorem finish_ok (events : List Event) (s : State) :
    finish setting nested? body closing standalone (.ok (events, s)) post lines = do
      let (more, s) ← finish setting nested? body closing standalone (.ok ([], s)) post lines
      return (events ++ more, s) := by
  rw [finish, finish, finishGroup, finishGroup]
  simp only [ok_bind, bind_assoc, pure_eq_ok, List.nil_append, List.append_assoc]

def prepended (events : List Event) (outcome : Outcome) : Outcome := do
  let (more, s) ← outcome
  return (events ++ more, s)

theorem finish_prepended (events : List Event) (outcome : Outcome) :
    finish setting nested? body closing standalone (prepended events outcome) post lines =
      prepended events (finish setting nested? body closing standalone outcome post lines) := by
  cases outcome with
  | error error => rfl
  | ok result =>
      obtain ⟨more, s⟩ := result
      change finish setting nested? body closing standalone (.ok (events ++ more, s)) post lines = _
      rw [prepended, finish_ok, finish_ok more]
      simp only [bind_assoc, pure_eq_ok, ok_bind, List.append_assoc]

theorem finish_eq_ok {outcome : Outcome} {result : List Event × State}
    (done : finish setting nested? body closing standalone outcome post lines = .ok result) :
    ∃ first more, outcome = .ok first ∧ result.1 = first.1 ++ more := by
  obtain ⟨group, done, last⟩ := bind_eq_ok.mp done
  obtain ⟨first, here, done⟩ := bind_eq_ok.mp done
  obtain ⟨left, -, done⟩ := bind_eq_ok.mp done
  obtain ⟨later, -, last⟩ := bind_eq_ok.mp last
  cases done
  cases last
  exact ⟨first, left.1 ++ later.1, here, List.append_assoc ..⟩

theorem callLambda_body (setting : Setting) (nested? : Option Nested) (body : Body) (s : State)
    (held : LambdaSection) (standalone : Bool) :
    (∃ error, ∀ text, callLambda setting nested? body s { held with body := text } standalone =
      .error error) ∨
    ∃ (leading : List Event) (call : LambdaCall) (after : State),
      (∀ event ∈ leading, event = .call (.literal body.indent)) ∧ call.name = held.name ∧
      ∀ text, ∃ template,
        callLambda setting nested? body s { held with body := text } standalone =
          .ok (leading ++ [.lambda { call with body := text } template], after) := by
  cases nested? with
  | none => exact .inl ⟨depthError setting body held.name held.position, fun _ => rfl⟩
  | some nested =>
      right
      obtain ⟨name, position, ⟨returns, escaped, template, path⟩, text, depth, opening⟩ := held
      let written := if standalone && s.atLineStart then ([], s) else indentLine body s
      have indented : ∀ event ∈ written.1, event = .call (.literal body.indent) := by
        dsimp only [written]
        unfold indentLine
        split <;> simp
      let call (kind : LambdaKind) : LambdaCall :=
        { name
          body := ""
          current := (s.scope.current?.map ShapedExpr.expr).getD (.var "data")
          escaping := if escaped then .escaped else .raw
          kind
          indent := if standalone && s.atLineStart then body.indent else "" }
      cases returns with
      | raw => exact ⟨written.1, call .raw, written.2, indented, rfl, fun text => ⟨_, rfl⟩⟩
      | model shape =>
          exact ⟨written.1, call (.model (s.names.fresh "model").1), written.2, indented, rfl,
            fun text => ⟨_, rfl⟩⟩

theorem endLambda_eq_ok {result : List Event × State}
    (done : endLambda setting nested? body s held standalone name position = .ok result) :
    ∃ leading call template, result.1 = leading ++ [.lambda call template] ∧
      (∀ event ∈ leading, event = .call (.literal body.indent)) ∧
      call.name = held.name ∧ call.body = held.body := by
  unfold endLambda at done
  split at done
  · cases done
  · obtain ⟨error, fails⟩ | ⟨leading, call, after, indent, named, calls⟩ :=
      callLambda_body setting nested? body { s with mode := .normal } held standalone
    · cases (fails held.body).symm.trans done
    · obtain ⟨template, called⟩ := calls held.body
      cases called.symm.trans done
      exact ⟨leading, _, template, rfl, indent, named, rfl⟩

theorem readToken_lambda (normal : s.mode = .normal) (opens : opening.kind = .tag .openSection name)
    (means : s.scope.meaning setting.schema name .openSection s.names = .ok (.lambda decl, names))
    (standalone : Bool) :
    readToken setting nested? body closing standalone s (.of .normal opening) =
      .ok ([], State.reading { s with pendingIndent := none, names }
        (.start name opening.position decl)) := by
  have role : (LineToken.of .normal opening).role = .normal :=
    LineToken.role_of_tag (by rw [Token.tag?, opens]; rfl)
  have kind : (LineToken.of .normal opening).token.kind = .tag .openSection name := opens
  simp only [readToken, normal, readPlain, role, kind, plainTag, sectionTag, meaning, means,
    Except.mapError, ok_bind]
  rfl

/-- A section of a body that belongs to a lambda, as its compile comes to it. -/
structure LambdaOpening (setting : Setting) (nested? : Option Nested) (body : Body) where
  earlier : List LineGroup
  pre : List LineToken
  tag : Token
  post : List LineToken
  later : List LineGroup
  name : String
  decl : LambdaDecl
  names : FreshNames
  events : List Event
  state : State
  grouped : groups body = .ok (earlier ++ (pre ++ .of .normal tag :: post) :: later)
  isSection : tag.kind = .tag .openSection name
  /-- What has been read in front of the tag. -/
  reached : (do
    let (events, s) ← runAll (readGroup setting nested? body) (.start body) earlier
    let (more, s) ← runAll (readToken setting nested? body false false) s pre
    return (events ++ more, s)) = .ok (events, state)
  normal : state.mode = .normal
  means : meaning setting body { state with pendingIndent := none } name .openSection tag.position =
    .ok (.lambda decl, names)

namespace LambdaOpening

variable {events : List Event} {last : Bool} {inner : List Token} {closing : Token}
  {after : List Token} (o : LambdaOpening setting nested? body)

def whole : List LineGroup := o.earlier ++ (o.pre ++ .of .normal o.tag :: o.post) :: o.later

theorem flatten_whole : o.whole.flatten =
    (o.earlier.flatten ++ o.pre) ++ .of .normal o.tag :: (o.post ++ o.later.flatten) := by
  simp [whole]

def front : List Token := (o.earlier.flatten ++ o.pre).map LineToken.token

def rest : List Token := (o.post ++ o.later.flatten).map LineToken.token

theorem tokens_of_groups {tokens : List Token} (ends : EndsOnce tokens)
    (grouped : groups body = .ok (groupsOf tokens)) : tokens = o.front ++ o.tag :: o.rest := by
  have whole : groupsOf tokens = o.whole := Except.ok.inj (grouped.symm.trans o.grouped)
  rw [← map_token_groupsOf ends, whole, o.flatten_whole, List.map_append, List.map_cons]
  rfl

def opened : State := { o.state with pendingIndent := none, names := o.names }

theorem isStandalone : o.tag.isStandalone = true := by
  rw [Token.isStandalone, o.isSection]
  rfl

theorem readToken_tag (closing standalone : Bool) :
    readToken setting nested? body closing standalone o.state (.of .normal o.tag) =
      .ok ([], o.opened.reading (.start o.name o.tag.position o.decl)) :=
  readToken_lambda o.normal o.isSection (mapError_eq_ok.mp o.means) standalone

theorem run : runAll (readGroup setting nested? body) (.start body) o.whole =
    finish setting nested? body false false
      (.ok (o.events, o.opened.reading (.start o.name o.tag.position o.decl))) o.post o.later := by
  obtain ⟨⟨events, middle⟩, earlier, reached⟩ := bind_eq_ok.mp o.reached
  obtain ⟨⟨more, state⟩, pre, reached⟩ := bind_eq_ok.mp reached
  obtain ⟨same, rfl⟩ := Prod.mk.inj (Except.ok.inj reached)
  have flag : closesLambda middle.mode (o.pre ++ .of .normal o.tag :: o.post) = false := by
    cases mode : middle.mode with
    | lambda held =>
        have deeper : o.tag.depthAfter? held.depth = some (held.depth + 1) := by
          rw [Token.depthAfter?, o.isSection]
          rfl
        exact closesLambda_of_mem (by simp) deeper
    | _ => rfl
  have here : runAll (readToken setting nested? body false false) middle
      (o.pre ++ [.of .normal o.tag]) =
        .ok (more, o.opened.reading (.start o.name o.tag.position o.decl)) := by
    rw [runAll_append, pre]
    simp only [ok_bind, runAll, o.readToken_tag]
    simp
  rw [whole, runAll_append, earlier, ok_bind]
  have rest : runAll (readGroup setting nested? body) middle
      ((o.pre ++ .of .normal o.tag :: o.post) :: o.later) =
        finish setting nested? body false false
          (.ok (more, o.opened.reading (.start o.name o.tag.position o.decl))) o.post o.later := by
    rw [runAll, readGroup_around flag here]
    rfl
  simp only [rest]
  rw [finish_ok more, finish_ok o.events, ← same]
  simp only [bind_assoc, pure_eq_ok, ok_bind, List.append_assoc]

theorem groupsOf_eq (grouped : groups body = .ok (groupsOf (o.front ++ o.tag :: o.rest))) :
    groupsOf (o.front ++ o.tag :: o.rest) = o.whole :=
  Except.ok.inj (grouped.symm.trans o.grouped)

theorem formed (ends : EndsOnce (o.front ++ o.tag :: o.rest))
    (grouped : groups body = .ok (groupsOf (o.front ++ o.tag :: o.rest))) :
    Formed (o.pre ++ .of .normal o.tag :: o.post) ∧ ∀ group ∈ o.later, Formed group := by
  have formed : ∀ group ∈ o.whole, Formed group := by
    rw [← o.groupsOf_eq grouped, groupsOf_eq_drain ends]
    exact fun group member => formed_of_mem_drain member
  exact List.forall_mem_cons.mp (List.forall_mem_append.mp formed).2

/-- A compile comes from the opening tag of the section to its end tag. -/
theorem ended (ends : EndsOnce (o.front ++ o.tag :: o.rest))
    (grouped : groups body = .ok (groupsOf (o.front ++ o.tag :: o.rest)))
    (split : o.rest = inner ++ closing :: after) (balanced : IsBalanced inner)
    (closes : closing.kind = .tag .close name) :
    ∃ flag standalone earlier here rest later,
      groupsOf (o.front ++ o.tag :: o.rest) =
        earlier ++ (here ++ .of .normal closing :: rest) :: later ∧
      (earlier.flatten ++ here).map LineToken.token = o.front ++ o.tag :: inner ∧
      (rest ++ later.flatten).map LineToken.token = after ∧
      (name = o.name → standalone = endsAlone name here rest) ∧
      runAll (readGroup setting nested? body) (.start body) o.whole =
        finish setting nested? body flag standalone
          (prepended o.events (endLambda setting nested? body o.opened
            ⟨o.name, o.tag.position, o.decl, text (between o.front o.tag inner closing after), 0,
              false⟩
            standalone name closing.position))
          rest later := by
  have whole := o.groupsOf_eq grouped
  obtain ⟨formedHere, formedLater⟩ := o.formed ends grouped
  -- The end tag, with the role that it has in its group.
  obtain ⟨inside, rest, within, rfl, atEnd⟩ := List.map_eq_append_iff.mp split
  obtain ⟨t, behind, rfl, rfl, rfl⟩ := List.map_eq_cons_iff.mp atEnd
  have isEnd : t.token.isStandalone = true := by
    rw [Token.isStandalone, closes]
    rfl
  have member : t ∈ (groupsOf (o.front ++ o.tag :: o.rest)).flatten := by
    rw [whole, o.flatten_whole, within]
    simp
  have normal := of_normal_of_mem ends member isEnd
  obtain ⟨flag, standalone, earlier, here, left, later, placed, inFront, rfl, alone, read⟩ :=
    finish_section setting nested? body o.opened o.name o.tag.position o.decl formedHere
      o.isStandalone formedLater (by rw [within, normal]) closes balanced
  have spelled : ((inside.dropWhile (·.role = .ignore)).rdropWhile (·.role = .indent)).map
      LineToken.token = between o.front o.tag (inside.map LineToken.token) t.token
        ((left ++ later.flatten).map LineToken.token) := by
    have shown : (drain true (o.front ++ o.tag :: o.rest)).flatten = (o.earlier.flatten ++ o.pre) ++
        .of .normal o.tag :: (inside ++ t :: (left ++ later.flatten)) := by
      rw [← groupsOf_eq_drain ends, whole, ← within, o.flatten_whole]
    rw [split] at ends shown
    exact map_token_between ends o.isStandalone isEnd shown rfl rfl
  refine ⟨flag, standalone, o.earlier ++ earlier, here, left, later, ?_, ?_, rfl, alone, ?_⟩
  · rw [whole, LambdaOpening.whole, placed, List.append_assoc]
  · rw [List.flatten_append, List.append_assoc, inFront, ← List.append_assoc, List.map_append,
      List.map_cons]
    rfl
  · rw [o.run, finish_ok, read, spelled]
    exact (finish_prepended o.events _).symm

/-- A compile from the start of a body on, behind the group of an end tag. -/
theorem compileWith_eq (outcome : Outcome)
    (run : runAll (readGroup setting nested? body) (.start body) o.whole = outcome) :
    compileWith setting nested? body = (do
      let (events, s) ← outcome
      checkClosed body s
      return (events, s.atLineStart)) := by
  rw [compileWith, o.grouped, ok_bind, ← run]
  rfl

theorem called (ends : EndsOnce (o.front ++ o.tag :: o.rest))
    (grouped : groups body = .ok (groupsOf (o.front ++ o.tag :: o.rest)))
    (split : o.rest = inner ++ closing :: after) (balanced : IsBalanced inner)
    (closes : closing.kind = .tag .close name)
    (compiled : compileWith setting nested? body = .ok (events, last)) :
    ∃ leading call template more,
      events = o.events ++ (leading ++ .lambda call template :: more) ∧
      (∀ event ∈ leading, event = .call (.literal body.indent)) ∧
      call.name = o.name ∧ call.body = text (between o.front o.tag inner closing after) := by
  obtain ⟨flag, standalone, -, -, rest, later, -, -, -, -, run⟩ :=
    o.ended ends grouped split balanced closes
  rw [finish_prepended] at run
  rw [o.compileWith_eq _ run] at compiled
  obtain ⟨result, done, compiled⟩ := bind_eq_ok.mp compiled
  obtain ⟨-, -, compiled⟩ := bind_eq_ok.mp compiled
  obtain ⟨rfl, -⟩ := Prod.mk.inj (Except.ok.inj compiled)
  obtain ⟨⟨more, state⟩, part, same⟩ := bind_eq_ok.mp done
  obtain rfl := Except.ok.inj same
  obtain ⟨first, further, ended, all⟩ := finish_eq_ok part
  obtain ⟨leading, call, template, calls, indent, named, text⟩ := endLambda_eq_ok ended
  refine ⟨leading, call, template, further, ?_, indent, named, text⟩
  have joined : more = leading ++ .lambda call template :: further := by
    rw [show more = first.1 ++ further from all, calls]
    simp
  rw [← joined]

end LambdaOpening

end Compile

end Stencil
