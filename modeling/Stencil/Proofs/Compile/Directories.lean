import Stencil.CommandLine.Run
import Stencil.Proofs.Compile.Failures
import Stencil.Proofs.Template.Directory

/-!
Compiles with the files under a directory for a library. Main statements: no name leads out of the
directory from a template that was come to by names that do not lead out of it when taken by
themselves, and a relative name in the section of a lambda leads to the file that it leads to
outside the section where it goes up from all directories of the template.
-/

namespace Stencil.Compile

open Stencil.Path TemplateDirectory

variable {directory : TemplateDirectory} {setting : Setting} {schema : Schema} {options : Options}
  {most room : Nat} {origin body : Body} {path : List Entry} {stack : TemplateStack}

section Confined

/-- That a request brings in nothing with a name that leads out of the directory: the name asked for
is relative or stays below by itself, and neither the name of its fragment nor that of a lambda goes
further up than it has come down. -/
def Request.IsConfined : Request → Prop
  | .inclusion _ name _ _ _ =>
      (isRelative (Fragment.ofName name).1 = true ∨ StaysBelow (Fragment.ofName name).1) ∧
        ∀ fragment ∈ (Fragment.ofName name).2, Descends (pieces fragment)
  | .lambda held _ => StaysBelow held.name

/-- That a compile comes to look for the templates of names from a stack, behind requests: from a
template that it has entered, or for the template of a lambda. -/
inductive LooksFrom (setting : Setting) (most : Nat) (origin : Body) :
    List Request → TemplateStack → Prop where
  | body {path : List Entry} {room : Nat} {body : Body} :
      Reaches setting most origin path room body →
      LooksFrom setting most origin (path.map Entry.request) body.stack
  | lambda {path : List Entry} {room : Nat} {body : Body}
      {p : Point setting (nestedAt setting room) body} {held : LambdaSection} {standalone : Bool}
      {answered : State} :
      Reaches setting most origin path room body →
      request? body p.standalone p.state p.token = some (.lambda held standalone, answered) →
      LooksFrom setting most origin (.lambda held standalone :: path.map Entry.request)
        (body.stack.enter .lambda held.name)

theorem staysBelow_of_fetch {name : String} {position : Position} {template : Template}
    (extension : IsFileName directory.extension) (calling : StaysBelow stack.top.name)
    (plain : isRelative (Fragment.ofName name).1 = true ∨ StaysBelow (Fragment.ofName name).1)
    (fragments : ∀ fragment ∈ (Fragment.ofName name).2, Descends (pieces fragment))
    (fetched : directory.library.fetch name stack position = .ok template) :
    StaysBelow template.name := by
  obtain ⟨found, located, named⟩ := exists_locate_of_fetch fetched
  have below := staysBelow_of_locate extension calling plain located
  obtain ⟨-, same⟩ | ⟨fragment, some, same⟩ := named
  · rwa [same]
  · rw [same]
    exact below.fragment (fragments fragment some)

theorem Reaches.staysBelow
    (reaches : Reaches ⟨schema, directory.library, options⟩ most origin path room body)
    (extension : IsFileName directory.extension) (named : StaysBelow origin.stack.top.name)
    (confined : ∀ request ∈ path.map Entry.request, request.IsConfined) :
    StaysBelow body.stack.top.name := by
  induction reaches with
  | origin => exact named
  | enter _ enters ih =>
      obtain ⟨here, outer⟩ := List.forall_mem_cons.mp confined
      have calling := ih outer
      cases enters with
      | inclusion _ fetched _ => exact staysBelow_of_fetch extension calling here.1 here.2 fetched
      | lambda _ _ => exact here

theorem LooksFrom.staysBelow {requests : List Request}
    (looks : LooksFrom ⟨schema, directory.library, options⟩ most origin requests stack)
    (extension : IsFileName directory.extension) (named : StaysBelow origin.stack.top.name)
    (confined : ∀ request ∈ requests, request.IsConfined) : StaysBelow stack.top.name := by
  cases looks with
  | body reaches => exact reaches.staysBelow extension named confined
  | lambda _ _ => exact (List.forall_mem_cons.mp confined).1

/-- In a compile that begins with a plain file name, the file that is found for a name is opened by
the path of the directory and a relative one in which `..` never goes further up than it has come
down, and it is in the directory. The name has to be relative, or such a path by itself, and so have
the names that the compile has come by to the template that the name is used in. -/
theorem locate_within {template : Template} {requests : List Request} {name found : String}
    (extension : IsFileName directory.extension) (file : IsFileName template.name)
    (looks : LooksFrom ⟨schema, directory.library, options⟩ options.maxIncludeDepth
      (.root schema template) requests stack)
    (confined : ∀ request ∈ requests, request.IsConfined)
    (plain : isRelative name = true ∨ StaysBelow name)
    (located : directory.locate name stack = .ok found) :
    StaysBelow found ∧ ∃ base place, directory.tree.placeOf directory.root = .ok base ∧
      directory.tree.locate (join directory.root found) = .ok place ∧ base <+: place := by
  have calling := looks.staysBelow extension file.staysBelow confined
  have below := staysBelow_of_locate extension calling plain located
  obtain ⟨opened, -⟩ := locate_cases located
  unfold FileTree.isFile at opened
  split at opened
  · next place leads =>
      obtain ⟨base, root, inside⟩ := FileTree.exists_placeOf_of_join below leads
      exact ⟨below, base, place, root, leads, inside⟩
  · cases opened

/-- A name that goes up further than there are directories, from a template in a directory. -/
theorem locate_within_of_included :
    let tree : FileTree :=
      ⟨[(["templates", "sub", "card.mustache"], "{{>../../item}}".toUTF8),
        (["templates", "item.mustache"], "y".toUTF8)], [], []⟩
    let directory := TemplateDirectory.ofRoot tree "templates"
    let template : Template := ⟨"page.mustache", "{{>sub/card}}"⟩
    ∃ (requests : List Request) (stack : TemplateStack),
      LooksFrom ⟨.dynamic, directory.library, .default⟩ 64 (.root .dynamic template) requests
        stack ∧
      stack.describe = "partial sub/card.mustache <- page.mustache" ∧
      directory.locate "../../item" stack = .ok "item.mustache" ∧ StaysBelow "item.mustache" ∧
      ∃ base place, tree.placeOf "templates" = .ok base ∧
        tree.locate (join "templates" "item.mustache") = .ok place ∧ base <+: place := by
  intro tree directory template
  let setting : Setting := ⟨.dynamic, directory.library, .default⟩
  let origin := Body.root .dynamic template
  let place (column : Nat) : Position := ⟨"page.mustache", 1, column, template.source⟩
  let p : Point setting (nestedAt setting 64) origin :=
    { earlier := []
      front := []
      token := ⟨⟨.tag .inclusion "sub/card", place 1, "{{>sub/card}}"⟩, .normal⟩
      back := [⟨⟨.eof, place 14, ""⟩, .eof⟩]
      later := []
      before := .start origin
      state := .start origin
      earlierEvents := []
      frontEvents := []
      grouped := by decide +kernel
      reached := rfl
      read := rfl }
  let card : Template := ⟨"sub/card.mustache", "{{>../../item}}"⟩
  let asked : Request := .inclusion .inclusion "sub/card" (place 1) "" []
  have fetched : directory.library.fetch "sub/card" origin.stack (place 1) = .ok card :=
    eq_ok_of_toOption (by decide +kernel)
  have reaches : Reaches setting 64 origin [⟨asked, ⟨.inclusion, card.name⟩, p.opensBehind⟩] 63
      (origin.enter (.start origin) .inclusion card "" []) :=
    .enter .origin (.inclusion rfl fetched (.inr rfl))
  have confined : ∀ request ∈ [asked], request.IsConfined :=
    List.forall_mem_singleton.mpr ⟨.inr (by decide), nofun⟩
  have located : directory.locate "../../item" (origin.stack.enter .inclusion card.name) =
      .ok "item.mustache" := by decide +kernel
  exact ⟨_, _, .body reaches, rfl, located,
    locate_within (by decide) (by decide) (.body reaches) confined (.inl rfl) located⟩

/-- A name that is not relative is not kept from leaving the directory. -/
theorem locate_plain_outside :
    let source := "{{>a/../../secret}}"
    let tree : FileTree :=
      ⟨[(["page.mustache"], source.toUTF8), (["secret.mustache"], "hi".toUTF8),
        (["templates", "a", "x.mustache"], "".toUTF8)], [], []⟩
    let directory := TemplateDirectory.ofRoot tree "templates"
    let origin := Body.root .dynamic ⟨"page.mustache", source⟩
    LooksFrom ⟨.dynamic, directory.library, .default⟩ 64 origin [] origin.stack ∧
      directory.locate "a/../../secret" origin.stack = .ok "a/../../secret.mustache" ∧
      ¬ StaysBelow "a/../../secret.mustache" ∧ tree.placeOf "templates" = .ok ["templates"] ∧
      tree.locate "templates/a/../../secret.mustache" = .ok ["secret.mustache"] ∧
      CommandLine.run tree ["render", "page.mustache", "--partials", "templates"] =
        .success "hi" := by
  intro source tree directory origin
  refine ⟨.body .origin, ?_, ?_, ?_, ?_, ?_⟩
  all_goals decide +kernel

end Confined

section Lambdas

def Entry.IsSection (entry : Entry) : Prop :=
  ∃ held standalone shape, entry.request = .lambda held standalone ∧
    held.decl.returns = .model shape ∧ held.decl.template = none ∧ held.decl.path = none

theorem Point.Enters.of_isSection {nested? : Option Nested} {p : Point setting nested? origin}
    {entry : Entry} (enters : p.Enters entry body) (inSection : entry.IsSection) :
    ∃ held standalone, entry.request = .lambda held standalone ∧ body.source = held.body ∧
      body.stack = origin.stack.enter .lambda held.name := by
  obtain ⟨held, standalone, shape, asked, returns, template, file⟩ := inSection
  cases enters with
  | inclusion _ _ _ => cases asked
  | lambda _ found =>
      cases asked
      unfold lambdaTemplate at found
      rw [returns, template, file] at found
      cases found
      exact ⟨held, standalone, rfl, rfl, rfl⟩

/-- The template of a lambda has its section for a text, and the name of the lambda for the one that
relative names are looked up from. -/
theorem Reaches.of_isSection {entry : Entry}
    (reaches : Reaches setting most origin (entry :: path) room body)
    (inSection : entry.IsSection) :
    ∃ held standalone, entry.request = .lambda held standalone ∧ body.source = held.body ∧
      body.stack.top = ⟨.lambda, held.name⟩ := by
  cases reaches with
  | enter _ enters =>
      obtain ⟨held, standalone, asked, source, stack⟩ := enters.of_isSection inSection
      exact ⟨held, standalone, asked, source, by rw [stack]; rfl⟩

/-- In the sections of lambdas, one in the other, a relative name leads to the file that it leads to
in the template that the sections stand in if it leaves the same of the directories of the template
and of those in the name of the innermost lambda, and only then. For a lambda without a slash in its
name this means that it goes up from all directories of the template. The same file gives the same
template. -/
theorem fullName_in_lambda {entry : Entry} {name file : String} {fragment? : Option String}
    (reaches : Reaches ⟨schema, directory.library, options⟩ most origin (entry :: path) room body)
    (sections : ∀ other ∈ entry :: path, other.IsSection)
    (named : Fragment.ofName name = (file, fragment?)) (relative : isRelative file = true) :
    ∃ held standalone, entry.request = .lambda held standalone ∧ body.source = held.body ∧
      (fullName file body.stack.top.name = fullName file origin.stack.top.name ↔
        (directories held.name).rdrop (climbs file) =
          (directories origin.stack.top.name).rdrop (climbs file)) ∧
      ('/' ∉ held.name.toList →
        (fullName file body.stack.top.name = fullName file origin.stack.top.name ↔
          (directories origin.stack.top.name).length ≤ climbs file)) ∧
      (fullName file body.stack.top.name = fullName file origin.stack.top.name →
        ∀ position, (directory.library.fetch name body.stack position).toOption =
          (directory.library.fetch name origin.stack position).toOption) := by
  obtain ⟨held, standalone, asked, source, top⟩ :=
    reaches.of_isSection (sections entry (List.mem_cons_self ..))
  rw [top]
  refine ⟨held, standalone, asked, source, fullName_eq_iff relative, fun inline => ?_,
    fun same => ?_⟩
  · exact fullName_eq_iff_of_inline relative inline
  · exact toOption_fetch_congr (by rwa [named, top])

/-- A partial in the section of a lambda whose name goes up from the directory of the template. -/
theorem fullName_in_lambda_above :
    let schema := (Schema.ofRoot (.struct "page")).withStruct "page" ⟨[], [("f", .model .text)]⟩
    let directory := TemplateDirectory.ofRoot ⟨[(["x.mustache"], "y".toUTF8)], [], []⟩ ""
    let setting : Setting := ⟨schema, directory.library, .default⟩
    let source := "{{#f}}{{>../x}}{{/f}}"
    let origin := Body.root schema ⟨"sub/t.mustache", source⟩
    ∃ entry room body, Reaches setting 64 origin [entry] room body ∧ entry.IsSection ∧
      body.source = "{{>../x}}" ∧
      fullName "../x" body.stack.top.name = fullName "../x" origin.stack.top.name ∧
      (directory.library.fetch "../x" body.stack .unknown).toOption = some ⟨"x.mustache", "y"⟩ := by
  intro schema directory setting source origin
  let place (column : Nat) : Position := ⟨"sub/t.mustache", 1, column, source⟩
  let held : LambdaSection := ⟨"f", place 1, .model .text, "{{>../x}}", 0, false⟩
  let state := { State.start origin with mode := .lambda held }
  let p : Point setting (nestedAt setting 64) origin :=
    { earlier := [[⟨⟨.tag .openSection "f", place 1, "{{#f}}"⟩, .normal⟩,
        ⟨⟨.tag .inclusion "../x", place 7, "{{>../x}}"⟩, .normal⟩]]
      front := []
      token := ⟨⟨.tag .close "f", place 16, "{{/f}}"⟩, .normal⟩
      back := []
      later := [[⟨⟨.eof, place 22, ""⟩, .eof⟩]]
      before := state
      state
      earlierEvents := []
      frontEvents := []
      grouped := by decide +kernel
      reached := rfl
      read := rfl }
  have reaches : Reaches setting 64 origin [⟨.lambda held false, ⟨.lambda, "f"⟩, p.opensBehind⟩] 63
      (origin.enterLambda (.start origin) held "{{>../x}}") :=
    .enter .origin (.lambda rfl rfl)
  have sections : ∀ other ∈ [(⟨.lambda held false, ⟨.lambda, "f"⟩, p.opensBehind⟩ : Entry)],
      other.IsSection := by
    rintro _ (_ | _)
    · exact ⟨held, false, .text, rfl, rfl, rfl, rfl⟩
    · contradiction
  have named : Fragment.ofName "../x" = ("../x", none) := rfl
  obtain ⟨other, _, asked, -, -, depth, serves⟩ := fullName_in_lambda reaches sections named rfl
  cases asked
  have same := (depth (by decide)).mpr (by decide)
  exact ⟨_, 63, _, reaches, sections _ (List.mem_cons_self ..), rfl, same,
    (serves same .unknown).trans (by decide +kernel)⟩

/-- A partial that is found beside the template is looked for at the top from the section of a
lambda. -/
theorem beside_in_lambda :
    let schema := (Schema.ofRoot (.struct "page")).withStruct "page" ⟨[], [("f", .model .text)]⟩
    let directory := TemplateDirectory.ofRoot ⟨[(["sub", "x.mustache"], "hi".toUTF8)], [], []⟩ ""
    let plain := "{{>./x}}"
    let inside := "{{#f}}{{>./x}}{{/f}}"
    fullName "./x" "sub/t.mustache" = "sub/x" ∧ fullName "./x" "f" = "x" ∧
      (compileInto Sink.asking schema directory.library .default ⟨"sub/t.mustache", plain⟩ ()).2 =
        none ∧
      (compileInto Sink.asking schema directory.library .default ⟨"sub/t.mustache", inside⟩ ()).2 =
        some (.library "./x" (.notFound "./x") ⟨"f", 1, 1, plain⟩
          "lambda f <- sub/t.mustache") := by
  intro schema directory plain inside
  refine ⟨?_, ?_, ?_, ?_⟩
  all_goals decide +kernel

end Lambdas

end Stencil.Compile
