import Stencil.Program.Listing
import Stencil.Proofs.Program.Concatenation
import Stencil.Proofs.Program.ParentCall

/-!
Templates that are included. Main statement: a template that is one inclusion holds the instructions
that the text of the included template comes to by itself.
-/

namespace Stencil

namespace Compile

theorem Body.renames_enter (setting : Setting) (root : Template) (found : Template)
    (serves : setting.library.Serves ((TemplateStack.root root.name).enter .inclusion found.name)
      (.root root.name)) :
    Body.Renames setting.library .refl
      ((Body.root setting.schema root).enter (.start (.root setting.schema root)) .inclusion found
        "" [])
      (.root setting.schema ⟨root.name, found.source⟩) where
  like := ⟨serves, rfl, rfl⟩
  start := ⟨(Scope.rename_root _).symm, .refl _, rfl, rfl, .nil, .normal⟩
  source := rfl

end Compile

namespace Program

open Compile

variable {schema : Schema} {library : Library} {options : Options} {root name text : String}
  {found : Template} {program : Program}

theorem compile_inclusion_of (named : IsTagName name)
    (fetched : ∀ position, library.fetch name (.root root) position = .ok found)
    (serves : library.Serves ((TemplateStack.root root).enter .inclusion found.name) (.root root))
    (compiled : Program.compile schema library options ⟨root, TagKind.inclusion.write name⟩ =
      .ok program) :
    ∃ own, Program.compile schema library options ⟨root, found.source⟩ = .ok own ∧
      program = ⟨root, [.inclusion name own.instructions], []⟩ := by
  obtain ⟨position, included⟩ := compile_inclusion schema library options root named
  rw [included] at compiled
  obtain ⟨result, done, made⟩ := bind_eq_ok.mp compiled
  obtain ⟨nested, template, ⟨events, atLineStart⟩, room?, fetchedHere, -, inner, written⟩ :=
    includeTemplate_ok done
  cases (fetched position).symm.trans fetchedHere
  cases depth : options.maxIncludeDepth with
  | zero =>
      rw [depth] at room?
      cases room?
  | succ room =>
      rw [depth] at room?
      obtain rfl := Option.some.inj room?
      rw [written] at made
      obtain ⟨-, accepts⟩ := accepts_of_cons (accepts_of_ofEvents made)
      obtain ⟨accepts, -⟩ := accepts_of_append accepts
      obtain ⟨lines, last, -, instructions, -, spells⟩ :=
        compileBody_derives _ _ _ _ _ inner accepts
      obtain ⟨others, own, renames⟩ := compileBody_renames ⟨schema, library, options⟩
        (show room ≤ options.maxIncludeDepth by omega)
        (Body.renames_enter ⟨schema, library, options⟩ ⟨root, TagKind.inclusion.write name⟩ found
          serves) inner
      have spelled := spells.rename renames
      rw [renameAll_refl] at spelled
      refine ⟨_, compile_of_spells own spelled, ?_⟩
      have enclosed := ofEvents_spells (spells.enclose (.inclusion name)) root
      exact Except.ok.inj (made.symm.trans enclosed)

/-- A template whose name asks for no fragment is included as its text comes to by itself. -/
theorem compile_included {catalog : Table String} (plain : IsPlainName name)
    (stored : catalog.get? name = some text)
    (compiled : Program.compile schema (.ofCatalog catalog) options
      ⟨root, TagKind.inclusion.write name⟩ = .ok program) :
    ∃ own, Program.compile schema (.ofCatalog catalog) options ⟨root, text⟩ = .ok own ∧
      program = ⟨root, [.inclusion name own.instructions], []⟩ := by
  have found : Library.ofCatalog catalog name (.root root) = .ok ⟨name, text⟩ := by
    rw [Library.ofCatalog, stored]
  refine compile_inclusion_of plain.toIsTagName (Library.fetch_of_isPlainName plain found)
    (.ofCatalog ?_) compiled
  intro searched isOpen
  rw [TemplateStack.contains_enter, isOpen, Bool.or_true]

theorem compile_included_loop :
    let library := Library.ofCatalog [("p", "{{#a}}\n{{>q}}\n{{/a}}"),
      ("q", "{{<r}}{{$b}}y{{/b}}{{/r}}"), ("r", "{{$b}}x{{/b}}")]
    ∃ program own,
      Program.compile .dynamic library .default ⟨"main", "{{>p}}"⟩ = .ok program ∧
      Program.compile .dynamic library .default ⟨"main", "{{#a}}\n{{>q}}\n{{/a}}"⟩ = .ok own ∧
      program = ⟨"main", [.inclusion "p" own.instructions], []⟩ := by
  intro library
  have succeeds : (Program.compile .dynamic library .default ⟨"main", "{{>p}}"⟩).isOk = true := by
    decide +kernel
  have plain : IsPlainName "p" := ⟨⟨rfl, by decide⟩, by decide⟩
  obtain ⟨program, compiled⟩ := eq_ok_of_isOk succeeds
  obtain ⟨own, ownCompiled, same⟩ := compile_included plain rfl compiled
  exact ⟨program, own, compiled, ownCompiled, same⟩

/-- A name with a number sign stands for a fragment, even where a template has this very name. -/
theorem fragment_included :
    let library := Library.ofCatalog [("a", "{{#b}}y{{/b}}"), ("a#b", "x")]
    ∃ program own,
      Program.compile .dynamic library .default ⟨"main", "{{>a#b}}"⟩ = .ok program ∧
      Program.compile .dynamic library .default ⟨"main", "x"⟩ = .ok own ∧
      program ≠ ⟨"main", [.inclusion "a#b" own.instructions], []⟩ := by
  intro library
  have lists : ((Program.compile .dynamic library .default ⟨"main", "{{>a#b}}"⟩).map
      listing).toOption = some "partial a#b\n  text \"y\"\n" := by
    decide +kernel
  have listsOwn : ((Program.compile .dynamic library .default ⟨"main", "x"⟩).map fun own =>
      listing ⟨"main", [.inclusion "a#b" own.instructions], []⟩).toOption =
      some "partial a#b\n  text \"x\"\n" := by
    decide +kernel
  obtain ⟨program, compiled, listed⟩ := map_eq_ok.mp (eq_ok_of_toOption lists)
  obtain ⟨own, ownCompiled, ownListed⟩ := map_eq_ok.mp (eq_ok_of_toOption listsOwn)
  refine ⟨program, own, compiled, ownCompiled, ?_⟩
  rintro rfl
  exact absurd (listed.symm.trans ownListed) (by decide)

end Program

end Stencil
