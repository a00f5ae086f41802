import Stencil.Proofs.Compile.Boundaries
import Stencil.Render.Template

/-!
Where a line of the output begins. Main statement: wherever the compiler takes nothing to be
written on the output line, so that the indentation is due, the output ends with a line ending, or
nothing has been written since the line was taken to begin without one.
-/

namespace Stencil

def Event.isWritten : Event → Bool
  | .call (.literal _) | .call (.value _ _) | .lambda _ _ => true
  | .call _ => false

namespace Compile

/-- That nothing has been written on the output line: the output has been empty, or a line ending
has been written last. -/
def StartsLine (events : List Event) : Prop :=
  ∀ event ∈ (events.filter Event.isWritten).getLast?,
    ∃ text, event = .call (.literal text) ∧ text.toList.getLast? = some '\n'

def Silent (events : List Event) : Prop := ∀ event ∈ events, event.isWritten = false

/-- A token of a body as its compile comes to it: the groups in front of its own, the tokens of its
group in front of it, and what has been made of them. -/
structure Point (setting : Setting) (nested? : Option Nested) (body : Body) where
  earlier : List LineGroup
  front : List LineToken
  token : LineToken
  back : List LineToken
  later : List LineGroup
  /-- The state at the start of the group. -/
  before : State
  state : State
  earlierEvents : List Event
  frontEvents : List Event
  grouped : groups body = .ok (earlier ++ (front ++ token :: back) :: later)
  reached : runAll (readGroup setting nested? body) (.start body) earlier =
    .ok (earlierEvents, before)
  read :
    let closing := closesLambda before.mode (front ++ token :: back)
    runAll (readToken setting nested? body closing
      (closing && 1 < (front ++ token :: back).length)) before front = .ok (frontEvents, state)

namespace Point

variable {setting : Setting} {nested? : Option Nested} {body : Body}

def group (p : Point setting nested? body) : LineGroup := p.front ++ p.token :: p.back

def closing (p : Point setting nested? body) : Bool := closesLambda p.before.mode p.group

def standalone (p : Point setting nested? body) : Bool := p.closing && 1 < p.group.length

def events (p : Point setting nested? body) : List Event := p.earlierEvents ++ p.frontEvents

def outcome (p : Point setting nested? body) : Outcome :=
  readToken setting nested? body p.closing p.standalone p.state p.token

/-- The newline of a line that is left out of the output, or the end tag of a lambda that is alone
on its line and is called where a line begins: a line is taken to begin behind them, although they
write no line ending. -/
def EndsNoLine (p : Point setting nested? body) : Prop :=
  (p.state.mode = .normal ∧ p.token.role = .ignore ∧ p.token.token.isNewline = true) ∨
    p.state.atLineStart = true ∧ ∃ held answered,
      request? body p.standalone p.state p.token = some (.lambda held true, answered)

end Point

/-- That compiling a body comes to another one, which it includes, directly or through others,
behind some events. All of these go to the same output. -/
inductive Includes (setting : Setting) (most : Nat) (origin : Body) :
    List Event → Nat → Body → Prop where
  | origin : Includes setting most origin [] most origin
  | inclusion {before : List Event} {room : Nat} {body : Body}
      {p : Point setting (nestedAt setting (room + 1)) body} {kind : FrameKind} {name : String}
      {position : Position} {indent : String} {blocks : GivenBlocks} {answered : State}
      {template : Template} : Includes setting most origin before (room + 1) body →
      request? body p.standalone p.state p.token =
        some (.inclusion kind name position indent blocks, answered) →
      setting.library.fetch name body.stack position = .ok template →
      kind = .parent ∨ body.stack.contains template.name = false →
      Includes setting most origin (before ++ p.events ++ [.call (.enterPartial name)]) room
        (body.enter answered kind template indent blocks)

/-- That nothing has been written since a line was taken to begin where none does. -/
def Strayed (setting : Setting) (most : Nat) (origin : Body) (events : List Event) : Prop :=
  ∃ before room body, Includes setting most origin before room body ∧
    ∃ (p : Point setting (nestedAt setting room) body) (more : List Event) (next : State)
      (rest : List Event), p.EndsNoLine ∧ p.outcome = .ok (more, next) ∧
        ¬ StartsLine (before ++ p.events ++ more) ∧ Silent rest ∧
        events = before ++ p.events ++ more ++ rest

variable {setting : Setting} {nested? : Option Nested} {body : Body} {s next : State}
  {t : LineToken} {events more : List Event}

section Output

theorem startsLine_nil : StartsLine [] := by simp [StartsLine]

theorem Silent.append (first : Silent events) (second : Silent more) : Silent (events ++ more) :=
  List.forall_mem_append.mpr ⟨first, second⟩

theorem StartsLine.append (starts : StartsLine events) (silent : Silent more) :
    StartsLine (events ++ more) := by
  have none : more.filter Event.isWritten = [] :=
    List.filter_eq_nil_iff.mpr fun event member => by simp [silent event member]
  rwa [StartsLine, List.filter_append, none, List.append_nil]

theorem startsLine_newline (events : List Event) (ending : LineEnding) :
    StartsLine (events ++ [.call (.literal ending.text)]) := by
  intro event last
  rw [List.filter_append, List.filter_cons_of_pos rfl, List.filter_nil,
    List.getLast?_concat] at last
  obtain rfl := Option.some.inj last
  exact ⟨ending.text, rfl, by cases ending <;> rfl⟩

end Output

theorem OpenTag.EnteredBy.silent {tag : OpenTag} (entered : tag.EnteredBy events) :
    Silent events := by
  cases entered with
  | openSection guards =>
      intro event member
      obtain ⟨guard, -, rfl⟩ := List.mem_map.mp member
      rfl
  | openInverted guard | openBlock => exact List.forall_mem_singleton.mpr rfl

theorem silent_leave (tag : OpenTag) : Silent tag.leave := by
  intro event member
  rw [leave_eq] at member
  obtain ⟨exit, owed, rfl⟩ := List.mem_map.mp member
  obtain rfl | rfl | rfl := tag.eq_of_mem_exits owed <;> rfl

theorem indentLine_eq (body : Body) (s : State) :
    (indentLine body s).1 = [] ∨
      s.atLineStart = true ∧ (indentLine body s).1 = [.call (.literal body.indent)] := by
  unfold indentLine
  dsimp only
  split
  · next due => exact .inr ⟨(Bool.and_eq_true_iff.mp due).1, rfl⟩
  · exact .inl rfl

theorem due_of_indentLine {text : String} {event last : Event} {rest : List Event}
    (same : (indentLine body s).1 ++ [last] = .call (.literal text) :: event :: rest) :
    s.atLineStart = true ∧ text = body.indent := by
  obtain none | ⟨start, indent⟩ := indentLine_eq body s
  · rw [none] at same
    cases same
  · rw [indent] at same
    cases same
    exact ⟨start, rfl⟩

/-- What a token writes behind other text it writes behind the indentation, which is due then. -/
theorem Point.due_of_outcome (p : Point setting nested? body) {text : String} {event : Event}
    {rest : List Event} {next : State}
    (done : p.outcome = .ok (.call (.literal text) :: event :: rest, next)) :
    p.state.atLineStart = true ∧ text = body.indent := by
  unfold outcome at done
  rw [readToken_eq] at done
  generalize same : Event.call (.literal text) :: event :: rest = events at done
  cases asks : request? body p.standalone p.state p.token with
  | none =>
      rw [asks] at done
      cases readToken_effect done with
      | silent _ _ | trimmed _ _ _ _ | ended _ _ => cases same
      | written _ _ _ => exact due_of_indentLine same.symm
      | opened entered _ _ => cases entered.silent _ (same ▸ List.mem_cons_self)
      | closed _ _ => cases silent_leave _ _ (same ▸ List.mem_cons_self)
  | some asked =>
      obtain ⟨request, answered⟩ := asked
      have start := (request?_keeps asks).2
      rw [asks] at done
      cases request with
      | inclusion kind name position indent blocks =>
          obtain ⟨nested, template, inner, -, -, -, -, whole⟩ := includeTemplate_ok done
          cases same.trans whole
      | lambda held standalone =>
          cases nested? with
          | none => cases done
          | some nested =>
              dsimp only [Request.answer] at done
              rw [callLambda_eq] at done
              have events := congrArg Prod.fst (Except.ok.inj done)
              rw [← same, lambdaIndent] at events
              split at events
              · cases events
              · rw [← start]
                exact due_of_indentLine events

variable {most room : Nat} {origin : Body} {before : List Event} {atLineStart : Bool}

def Sound (setting : Setting) (most : Nat) (origin : Body) (events : List Event)
    (atLineStart : Bool) : Prop :=
  atLineStart = true → StartsLine events ∨ Strayed setting most origin events

namespace Sound

theorem append (sound : Sound setting most origin events atLineStart) (silent : Silent more) :
    Sound setting most origin (events ++ more) atLineStart := by
  intro start
  obtain starts | ⟨before, room, body, includes, p, stray, next, rest, ends, done, apart, quiet,
    rfl⟩ := sound start
  · exact .inl (starts.append silent)
  · exact .inr ⟨before, room, body, includes, p, stray, next, rest ++ more, ends, done, apart,
      quiet.append silent, List.append_assoc _ _ _⟩

theorem written (events : List Event) : Sound setting most origin events false := nofun

end Sound

def CompilesSoundly (setting : Setting) (most : Nat) (origin : Body) (room : Nat) : Prop :=
  ∀ before body, Includes setting most origin before room body →
    Sound setting most origin before body.atLineStart → ∀ events atLineStart,
      compileBody setting room body = .ok (events, atLineStart) →
        Sound setting most origin (before ++ events) atLineStart

section

variable (includes : Includes setting most origin before room body)
  (p : Point setting (nestedAt setting room) body)

include includes

theorem Point.sound_of_endsNoLine (ends : p.EndsNoLine) (done : p.outcome = .ok (more, next)) :
    Sound setting most origin (before ++ p.events ++ more) atLineStart := by
  intro _
  by_cases starts : StartsLine (before ++ p.events ++ more)
  · exact .inl starts
  · exact .inr ⟨before, room, body, includes, p, more, next, [], ends, done, starts,
      List.forall_mem_nil _, (List.append_nil _).symm⟩

theorem Point.sound_inclusion
    (sound : Sound setting most origin (before ++ p.events) p.state.atLineStart)
    (deeper : ∀ below, room = below + 1 → CompilesSoundly setting most origin below)
    {kind : FrameKind} {name : String} {position : Position} {indent : String}
    {blocks : GivenBlocks} {answered : State}
    (asks : request? body p.standalone p.state p.token =
      some (.inclusion kind name position indent blocks, answered))
    (done : includeTemplate setting (nestedAt setting room) body answered kind name position indent
      blocks = .ok (more, next)) :
    Sound setting most origin (before ++ p.events ++ more) next.atLineStart := by
  obtain ⟨nested, template, ⟨inner, last⟩, found, fetched, acyclic, compiled, -⟩ :=
    includeTemplate_ok done
  obtain _ | below := room
  · cases found
  · cases found
    rw [nestedAt, includeTemplate_found fetched acyclic, compiled] at done
    cases done
    have entered : Sound setting most origin (before ++ p.events ++ [.call (.enterPartial name)])
        (body.enter answered kind template indent blocks).atLineStart := by
      rw [show (body.enter answered kind template indent blocks).atLineStart = answered.atLineStart
        from rfl, (request?_keeps asks).2]
      exact sound.append (List.forall_mem_singleton.mpr rfl)
    have left := deeper below rfl _ _ (.inclusion includes asks fetched acyclic) entered inner last
      compiled
    have exits : Silent [.call .exitPartial] := List.forall_mem_singleton.mpr rfl
    simpa using left.append exits

theorem Point.sound_lambda {held : LambdaSection} {standalone : Bool} {answered : State}
    (asks : request? body p.standalone p.state p.token = some (.lambda held standalone, answered))
    (done : p.outcome = .ok (more, next))
    (called : callLambda setting (nestedAt setting room) body answered held standalone =
      .ok (more, next)) :
    Sound setting most origin (before ++ p.events ++ more) next.atLineStart := by
  obtain _ | below := room
  · cases called
  · rw [nestedAt, callLambda_eq] at called
    have state : (lambdaIndent body answered standalone).2 = next :=
      congrArg Prod.snd (Except.ok.inj called)
    have start := (request?_keeps asks).2
    rw [lambdaIndent] at state
    split at state
    · next owed =>
        obtain ⟨rfl, begins⟩ := Bool.and_eq_true_iff.mp owed
        exact Point.sound_of_endsNoLine includes p
          (.inr ⟨start ▸ begins, held, answered, asks⟩) done
    · have middle : next.atLineStart = false := by
        rw [← state]
        rfl
      rw [middle]
      exact .written _

theorem Point.sound_next
    (sound : Sound setting most origin (before ++ p.events) p.state.atLineStart)
    (deeper : ∀ below, room = below + 1 → CompilesSoundly setting most origin below)
    (done : p.outcome = .ok (more, next)) :
    Sound setting most origin (before ++ p.events ++ more) next.atLineStart := by
  have read := done
  unfold outcome at read
  rw [readToken_eq] at read
  cases asks : request? body p.standalone p.state p.token with
  | none =>
      rw [asks] at read
      cases readToken_effect read with
      | silent _ same =>
          rw [same]
          exact sound.append (List.forall_mem_nil _)
      | opened entered _ same =>
          rw [same]
          exact sound.append entered.silent
      | closed _ same =>
          rw [same]
          exact sound.append (silent_leave _)
      | written _ _ middle =>
          rw [middle]
          exact .written _
      | ended ending _ => exact fun _ => .inl (startsLine_newline _ ending)
      | trimmed normal role newline _ =>
          exact Point.sound_of_endsNoLine includes p (.inl ⟨normal, role, newline⟩) done
  | some asked =>
      obtain ⟨request, answered⟩ := asked
      rw [asks] at read
      cases request with
      | inclusion kind name position indent blocks =>
          exact Point.sound_inclusion includes p sound deeper asks read
      | lambda held standalone => exact Point.sound_lambda includes p asks done read

end

section

variable {P : List LineToken → List Event → State → Prop} {earlier later : List LineGroup}
  {state : State}
  (kept : ∀ (p : Point setting nested? body) {events : List Event} {next : State},
    P (p.earlier.flatten ++ p.front) p.events p.state → p.outcome = .ok (events, next) →
      P (p.earlier.flatten ++ p.front ++ [p.token]) (p.events ++ events) next)

include kept

theorem front_induction {front back : List LineToken} {before : State}
    {earlierEvents frontEvents : List Event}
    (grouped : groups body = .ok (earlier ++ (front ++ back) :: later))
    (reached : runAll (readGroup setting nested? body) (.start body) earlier =
      .ok (earlierEvents, before))
    (holds : P earlier.flatten earlierEvents before)
    (read : runAll (readToken setting nested? body (closesLambda before.mode (front ++ back))
        (closesLambda before.mode (front ++ back) && 1 < (front ++ back).length)) before front =
      .ok (frontEvents, state)) :
    P (earlier.flatten ++ front) (earlierEvents ++ frontEvents) state := by
  refine runAll_induction
    (P := fun read events s => P (earlier.flatten ++ read) (earlierEvents ++ events) s)
    (by simpa using holds) ?_ read
  rintro front t more events middle _ _ rfl inFront reading here
  rw [List.append_assoc, List.cons_append] at grouped inFront here
  have next := kept
    ⟨earlier, front, t, more ++ back, later, before, middle, earlierEvents, events, grouped,
      reached, inFront⟩ reading here
  rwa [List.append_assoc, show Point.events _ = earlierEvents ++ events from rfl,
    List.append_assoc] at next

theorem groups_induction {events : List Event} (start : P [] [] (.start body))
    (ended : ∀ {read events s}, P read events s → P read events (endGroup s))
    (grouped : groups body = .ok (earlier ++ later))
    (reached : runAll (readGroup setting nested? body) (.start body) earlier =
      .ok (events, state)) : P earlier.flatten events state := by
  refine runAll_induction (P := fun read events s => P read.flatten events s) start ?_ reached
  rintro earlier group more events middle _ _ rfl reached holds here
  obtain ⟨⟨events, final⟩, read, here⟩ := bind_eq_ok.mp here
  cases here
  have whole : groups body = .ok (earlier ++ (group ++ []) :: (more ++ later)) := by
    rwa [List.append_nil, ← List.cons_append, ← List.append_assoc]
  have atEnd := front_induction kept whole reached holds (by rwa [List.append_nil])
  rw [List.flatten_append, List.flatten_singleton]
  exact ended atEnd

theorem Point.holds (p : Point setting nested? body) (start : P [] [] (.start body))
    (ended : ∀ {read events s}, P read events s → P read events (endGroup s)) :
    P (p.earlier.flatten ++ p.front) p.events p.state :=
  front_induction kept p.grouped p.reached
    (groups_induction kept start ended p.grouped p.reached) p.read

end

theorem endGroup_atLineStart (s : State) : (endGroup s).atLineStart = s.atLineStart := by
  unfold endGroup
  split <;> rfl

section

variable (deeper : ∀ below, room = below + 1 → CompilesSoundly setting most origin below)
  (includes : Includes setting most origin before room body)

include deeper includes

theorem Point.sound_behind (p : Point setting (nestedAt setting room) body)
    (sound : Sound setting most origin (before ++ p.events) p.state.atLineStart)
    (done : p.outcome = .ok (more, next)) :
    Sound setting most origin (before ++ (p.events ++ more)) next.atLineStart := by
  rw [← List.append_assoc]
  exact Point.sound_next includes p sound deeper done

theorem sound_groups {earlier later : List LineGroup} {state : State}
    (sound : Sound setting most origin before body.atLineStart)
    (grouped : groups body = .ok (earlier ++ later))
    (reached : runAll (readGroup setting (nestedAt setting room) body) (.start body) earlier =
      .ok (events, state)) :
    Sound setting most origin (before ++ events) state.atLineStart :=
  groups_induction
    (P := fun _ events s => Sound setting most origin (before ++ events) s.atLineStart)
    (fun p => p.sound_behind deeper includes) (by rwa [List.append_nil])
    (fun holds => by rwa [endGroup_atLineStart]) grouped reached

theorem Point.sound (p : Point setting (nestedAt setting room) body)
    (sound : Sound setting most origin before body.atLineStart) :
    Sound setting most origin (before ++ p.events) p.state.atLineStart :=
  Point.holds (P := fun _ events s => Sound setting most origin (before ++ events) s.atLineStart)
    (fun q => q.sound_behind deeper includes) p (by rwa [List.append_nil])
    (fun holds => by rwa [endGroup_atLineStart])

end

/-- What a body preserves, with all that it includes. -/
theorem compilesSoundly (setting : Setting) (most : Nat) (origin : Body) (room : Nat) :
    CompilesSoundly setting most origin room := by
  induction room using Nat.strongRecOn with
  | ind room ih =>
      intro before body includes sound events atLineStart compiled
      rw [compileBody_eq] at compiled
      obtain ⟨lines, grouped, compiled⟩ := bind_eq_ok.mp compiled
      obtain ⟨⟨events, last⟩, run, compiled⟩ := bind_eq_ok.mp compiled
      obtain ⟨⟨⟩, -, compiled⟩ := bind_eq_ok.mp compiled
      cases compiled
      rw [← List.append_nil lines] at grouped
      exact sound_groups (fun below same => ih below (by omega)) includes sound grouped run

theorem Includes.sound (includes : Includes setting most origin before room body) :
    Sound setting most origin before body.atLineStart := by
  induction includes with
  | origin => exact fun _ => .inl startsLine_nil
  | @inclusion before room body p kind name position indent blocks answered template outer asks _ _
      ih =>
      have reached := p.sound (fun below _ => compilesSoundly setting most origin below) outer ih
      have entered : (body.enter answered kind template indent blocks).atLineStart =
          p.state.atLineStart := (request?_keeps asks).2
      rw [entered]
      exact reached.append (List.forall_mem_singleton.mpr rfl)

/-- Wherever a token is read, in a body or in another that this one includes, the token writes the
indentation only if a line is taken to begin there; and if one is, then either nothing has been
written on the output line, or nothing has been written since a token at which the compiler strayed:
one that lets a line begin in the middle of a line and writes no line ending. -/
theorem Includes.startsLine (includes : Includes setting most origin before room body)
    (p : Point setting (nestedAt setting room) body) :
    (∀ text event rest next, p.outcome = .ok (.call (.literal text) :: event :: rest, next) →
      p.state.atLineStart = true ∧ text = body.indent) ∧
    (p.state.atLineStart = true → StartsLine (before ++ p.events) ∨
      Strayed setting most origin (before ++ p.events)) :=
  ⟨fun _ _ _ _ => p.due_of_outcome,
    p.sound (fun below _ => compilesSoundly setting most origin below) includes includes.sound⟩

/-- The first word of an indented partial. -/
theorem Includes.startsLine_first_word :
    let setting : Setting := ⟨.dynamic, .ofCatalog [("a", "x\n")], .default⟩
    ∃ (before : List Event) (room : Nat) (body : Body)
      (p : Point setting (nestedAt setting room) body) (next : State),
      Includes setting 1 (.root .dynamic ⟨"main", "  {{>a}}\n"⟩) before room body ∧
        p.outcome = .ok ([.call (.literal "  "), .call (.literal "x")], next) ∧
        p.state.atLineStart = true ∧ "  " = body.indent ∧
        (StartsLine (before ++ p.events) ∨
          Strayed setting 1 (.root .dynamic ⟨"main", "  {{>a}}\n"⟩)
            (before ++ p.events)) := by
  intro setting
  let origin : Body := .root .dynamic ⟨"main", "  {{>a}}\n"⟩
  let place (column : Nat) : Position := ⟨"main", 1, column, "  {{>a}}"⟩
  let tag : Point setting (nestedAt setting 1) origin :=
    { earlier := []
      front := [⟨⟨.whitespace "  ", place 1, "  "⟩, .indent⟩]
      token := ⟨⟨.tag .inclusion "a", place 3, "{{>a}}"⟩, .normal⟩
      back := [⟨⟨.newline .lf, place 9, "\n"⟩, .ignore⟩]
      later := [[⟨⟨.eof, ⟨"main", 2, 1, ""⟩, ""⟩, .eof⟩]]
      before := .start origin
      state := { State.start origin with pendingIndent := some "  " }
      earlierEvents := []
      frontEvents := []
      grouped := by decide +kernel
      reached := rfl
      read := rfl }
  let body := origin.enter (.start origin) .inclusion ⟨"a", "x\n"⟩ "  " []
  let word : Point setting (nestedAt setting 0) body :=
    { earlier := []
      front := []
      token := ⟨⟨.text "x", ⟨"a", 1, 1, "x"⟩, "x"⟩, .normal⟩
      back := []
      later := [[⟨⟨.newline .lf, ⟨"a", 1, 2, "x"⟩, "\n"⟩, .normal⟩],
        [⟨⟨.eof, ⟨"a", 2, 1, ""⟩, ""⟩, .eof⟩]]
      before := .start body
      state := .start body
      earlierEvents := []
      frontEvents := []
      grouped := by decide +kernel
      reached := rfl
      read := rfl }
  have included :
      Includes setting 1 origin ([] ++ tag.events ++ [.call (.enterPartial "a")]) 0 body :=
    .inclusion .origin rfl rfl (.inr rfl)
  have outcome : word.outcome = .ok ([.call (.literal "  "), .call (.literal "x")],
      { State.start body with atLineStart := false }) := rfl
  obtain ⟨due, starts⟩ := included.startsLine word
  obtain ⟨start, indent⟩ := due _ _ _ _ outcome
  exact ⟨_, 0, body, word, _, included, outcome, start, indent, starts start⟩

/-- The indentation is written in the middle of a line, where the line of a block's tag is left out
of the output behind text. -/
theorem indent_within_line :
    let library := Library.ofCatalog [("a", "x{{>p}}"),
      ("p", "{{$b}}\ny{{/b}}")]
    let setting : Setting := ⟨.dynamic, library, .default⟩
    (renderText "  {{>a}}\n" (.object []) library).toOption = some "  x  y" ∧
    ∃ (before : List Event) (room : Nat) (body : Body)
      (p : Point setting (nestedAt setting room) body) (next : State),
      Includes setting 64 (.root .dynamic ⟨namelessTemplate, "  {{>a}}\n"⟩) before room
          body ∧
        p.outcome = .ok ([.call (.literal "  "), .call (.literal "y")], next) ∧
        ¬ StartsLine (before ++ p.events) := by
  intro library setting
  let origin : Body := .root .dynamic ⟨namelessTemplate, "  {{>a}}\n"⟩
  let place (column : Nat) : Position := ⟨namelessTemplate, 1, column, "  {{>a}}"⟩
  let outer : Point setting (nestedAt setting 64) origin :=
    { earlier := []
      front := [⟨⟨.whitespace "  ", place 1, "  "⟩, .indent⟩]
      token := ⟨⟨.tag .inclusion "a", place 3, "{{>a}}"⟩, .normal⟩
      back := [⟨⟨.newline .lf, place 9, "\n"⟩, .ignore⟩]
      later := [[⟨⟨.eof, ⟨namelessTemplate, 2, 1, ""⟩, ""⟩, .eof⟩]]
      before := .start origin
      state := { State.start origin with pendingIndent := some "  " }
      earlierEvents := []
      frontEvents := []
      grouped := by decide +kernel
      reached := rfl
      read := rfl }
  let caller := origin.enter (.start origin) .inclusion ⟨"a", "x{{>p}}"⟩ "  " []
  let line (column : Nat) : Position := ⟨"a", 1, column, "x{{>p}}"⟩
  let inner : Point setting (nestedAt setting 63) caller :=
    { earlier := []
      front := [⟨⟨.text "x", line 1, "x"⟩, .normal⟩]
      token := ⟨⟨.tag .inclusion "p", line 2, "{{>p}}"⟩, .normal⟩
      back := []
      later := [[⟨⟨.eof, line 8, ""⟩, .eof⟩]]
      before := .start caller
      state := { State.start caller with atLineStart := false }
      earlierEvents := []
      frontEvents := [.call (.literal "  "), .call (.literal "x")]
      grouped := by decide +kernel
      reached := rfl
      read := rfl }
  let body := caller.enter { State.start caller with atLineStart := false } .inclusion
    ⟨"p", "{{$b}}\ny{{/b}}"⟩ "" []
  let first (column : Nat) : Position := ⟨"p", 1, column, "{{$b}}"⟩
  let second (column : Nat) : Position := ⟨"p", 2, column, "y{{/b}}"⟩
  let inBlock : State := { State.start body with
    atLineStart := true
    openTags := [⟨.openBlock, "b", first 1, 0, body.scope, body.names⟩] }
  let word : Point setting (nestedAt setting 62) body :=
    { earlier := [[⟨⟨.tag .openBlock "b", first 1, "{{$b}}"⟩, .normal⟩,
        ⟨⟨.newline .lf, first 7, "\n"⟩, .ignore⟩]]
      front := []
      token := ⟨⟨.text "y", second 1, "y"⟩, .normal⟩
      back := [⟨⟨.tag .close "b", second 2, "{{/b}}"⟩, .normal⟩]
      later := [[⟨⟨.eof, second 8, ""⟩, .eof⟩]]
      before := inBlock
      state := inBlock
      earlierEvents := [.call (.enterBlock "b")]
      frontEvents := []
      grouped := by decide +kernel
      reached := rfl
      read := rfl }
  have included : Includes setting 64 origin
      ([] ++ outer.events ++ [.call (.enterPartial "a")] ++ inner.events ++
        [.call (.enterPartial "p")]) 62 body :=
    .inclusion (.inclusion .origin rfl rfl (.inr rfl)) rfl rfl (.inr rfl)
  refine ⟨by decide +kernel, _, 62, body, word, { inBlock with atLineStart := false }, included,
    rfl, ?_⟩
  intro starts
  obtain ⟨text, same, ends⟩ := starts (.call (.literal "x")) rfl
  cases same
  cases ends

end Compile

end Stencil
