import TypeForge.Proofs.Generate.Succeeds
import TypeForge.Proofs.Output.Tally
import TypeForge.Proofs.Parser.Concatenation
import Mathlib.Data.List.Forall2

/-!
# The text of a program's code

The text of a module starts with its import lines; behind them stand the lifted functions and
one declaration for each item of the program.  Its noteworthy words are library symbols and their
members, names of lifted functions, and words that the author of the program has written.
-/

namespace TypeForge

open TypeScript

/-! ## The text of a module -/

namespace TypeScript.Module

/-- The import lines with the blank line behind them. -/
def header (m : Module) (target : Target) : String :=
  match m.importLines target with
  | [] => ""
  | lines => "\n".intercalate lines ++ "\n\n"

/-- The text behind the import lines. -/
def code (m : Module) : String :=
  "\n\n".intercalate (m.lifted.map Interface.render ++ m.items.map Declaration.render) ++ "\n"

theorem render_eq_append {m : Module} (h : m.items ≠ []) (target : Target) :
    m.render target = m.header target ++ m.code := by
  have hne : m.lifted.map Interface.render ++ m.items.map Declaration.render ≠ [] := by simp [h]
  unfold render blocks header code
  rw [List.append_assoc]
  cases m.importLines target with
  | nil => simp
  | cons line lines =>
    have hlines : ["\n".intercalate (line :: lines)] ≠ [] := List.cons_ne_nil _ _
    rw [String.intercalate_append_of_ne_nil hlines hne, String.intercalate_singleton, String.append_assoc]

theorem marks_code (m : Module) : marks m.code = m.atoms.flatMap fun atom => marks atom.text := by
  have hblank : marks "\n\n" = [] := marks_phrase _ (by decide)
  rw [code, marks_trail (by decide), partwise_marks.intercalate hblank (by decide) (by decide) (by decide),
    atoms, List.flatMap_append, List.flatMap_append, List.flatMap_map, List.flatMap_map,
    List.flatMap_assoc, List.flatMap_assoc]
  simp only [marks_interface, marks_declaration]

end TypeScript.Module

/-! ## Noteworthy words -/

theorem isDigit_of_isNumber {digits : String} (h : isNumber digits = true) :
    ∀ c ∈ digits.toList, c.isDigit = true := by
  rw [isNumber, Bool.and_eq_true] at h
  exact List.all_eq_true.1 h.2

theorem marks_of_isNumber {digits : String} (h : isNumber digits = true) : marks digits = [] := by
  have hne : digits ≠ "" := by
    rintro rfl
    cases h
  have hdigits := isDigit_of_isNumber h
  have hword : ∀ c ∈ digits.toList, isWordChar c = true :=
    fun c hc => isWordChar_of_isDigit (hdigits c hc)
  rw [marks, words_of_forall hne hword, List.filter_singleton, isNoteworthy_of_digits hne hdigits]
  rfl

theorem isCapitalised_of_mem_emitted {x : Symbol} (h : x ∈ Symbol.emitted) :
    isCapitalised x.name = true := by
  have hnames : ∀ x ∈ Symbol.emitted, isCapitalised x.name = true := by decide +kernel
  exact hnames x h

theorem isCapitalised_of_mem_memberNames {name : String} (h : name ∈ memberNames) :
    isCapitalised name = true := by
  have hnames : ∀ name ∈ memberNames, isCapitalised name = true := by decide
  exact hnames name h

theorem isLiftedWord_of_isLifted {name : Name} (h : name.isLifted = true) :
    words name.render = [name.render] ∧ isLiftedWord name.render = true := by
  cases name with
  | user text | temp id => cases h
  | lambda id | arm id => exact ⟨words_numbered (by decide) id, isLiftedWord_numbered (by decide) id⟩

/-- **A noteworthy word of generated code was written by the author of the program, or is a
library symbol, a member of one or the name of a lifted function.** -/
theorem mem_marks_of_known {program : Program} {atom : Atom} {word : String}
    (hspelled : AllSpelled program.texts) (hatom : atom.Known program.texts) (h : word ∈ marks atom.text) :
    (∃ text ∈ program.wording, word ∈ words text) ∨ (word = atom.text ∧ ∀ text, atom ≠ .source text) := by
  cases atom with
  | source text =>
    refine .inl ?_
    have hplain {chars : String} (hword : word ∈ marks chars) : word ∈ words chars :=
      (List.mem_filter.1 hword).1
    have hwording {chars : String} (hmem : text ∈ program.texts) (hchars : text.wording? = some chars) :
        chars ∈ program.wording := List.mem_filterMap.2 ⟨text, hmem, hchars⟩
    rcases hatom with hmem | rfl
    · cases text with
      | name chars => exact ⟨chars, hwording hmem rfl, hplain h⟩
      | number digits =>
        have hnone : marks digits = [] := marks_of_isNumber (hspelled _ hmem)
        rw [Atom.text, SourceText.text, hnone] at h
        · cases h
        · simp
      | quoted chars => exact ⟨chars, hwording hmem rfl, mem_words_of_mem_marks_literal h⟩
      | chunk chars => exact ⟨chars, hwording hmem rfl, hplain h⟩
    · have hone : marks "1" = [] := marks_of_isNumber (by decide)
      change word ∈ marks "1" at h
      rw [hone] at h
      cases h
  | symbol x =>
    rw [Atom.text, marks_of_isCapitalised (isCapitalised_of_mem_emitted hatom)] at h
    exact .inr ⟨List.mem_singleton.1 h, by simp⟩
  | member name =>
    rw [Atom.text, marks_of_isCapitalised (isCapitalised_of_mem_memberNames hatom)] at h
    exact .inr ⟨List.mem_singleton.1 h, by simp⟩
  | lifted name =>
    have hwords := (isLiftedWord_of_isLifted hatom).1
    have hword := (List.mem_filter.1 h).1
    rw [Atom.text, hwords] at hword
    exact .inr ⟨List.mem_singleton.1 hword, by simp⟩

/-- The same of a text that is made of atoms. -/
theorem written_or_generated {program : Program} {atoms : List Atom} {text word : String}
    (hspelled : AllSpelled program.texts) (hatoms : ∀ atom ∈ atoms, atom.Known program.texts)
    (htext : marks text = atoms.flatMap fun atom => marks atom.text) (hword : word ∈ words text)
    (hnoted : isNoteworthy word = true) :
    (∃ text ∈ program.wording, word ∈ words text) ∨
      ∃ atom ∈ atoms, word = atom.text ∧ ∀ text, atom ≠ .source text := by
  have hmark : word ∈ marks text := List.mem_filter.2 ⟨hword, hnoted⟩
  rw [htext, List.mem_flatMap] at hmark
  obtain ⟨atom, hatom, hmark⟩ := hmark
  exact (mem_marks_of_known hspelled (hatoms atom hatom) hmark).imp_right fun h => ⟨atom, hatom, h⟩

/-! ## Programs and their text -/

theorem of_compile {target : Target} {source output : String} (h : compile target source = .ok output) :
    ∃ program m, parseProgram source = .ok program ∧ program.generate = .ok m ∧
      output = m.render target := by
  cases hprogram : parseProgram source with
  | error e =>
    rw [compile, hprogram] at h
    cases h
  | ok program =>
    rw [compile_of_parseProgram hprogram] at h
    cases hm : program.generate with
    | error e =>
      rw [hm] at h
      cases h
    | ok m =>
      rw [hm] at h
      cases h
      exact ⟨program, m, rfl, hm, rfl⟩

/-- A text compiles if its program and code can be looked at. -/
theorem compiles_of_check {source : String} {check : Program → Module → Bool}
    (h : ((parseProgram source).toOption.any fun program =>
      program.generate.toOption.any fun m => check program m) = true) (target : Target) :
    ∃ output, compile target source = .ok output ∧
      ∀ program m, parseProgram source = .ok program → program.generate = .ok m → check program m = true := by
  cases hprogram : parseProgram source with
  | error e =>
    rw [hprogram] at h
    cases h
  | ok program =>
    rw [hprogram] at h
    cases hm : program.generate with
    | error e =>
      simp [Except.toOption, hm] at h
    | ok m =>
      refine ⟨m.render target, by rw [compile_of_parseProgram hprogram, hm]; rfl, ?_⟩
      intro program' m' hprogram' hm'
      cases hprogram'
      rw [hm] at hm'
      cases hm'
      simpa [Except.toOption, hm] using h

/-- What a declaration has of the item it stands for. -/
inductive Declares : TopLevel → Declaration → Prop where
  | definition (d : Definition) (value : Ty) :
    Declares (.definition d) (.named d.isExported ⟨.user d.name, value⟩)
  | sectionOf (s : Section) (body : List Alias) (h : body.length = s.body.length) :
    Declares (.sectionOf s) (.group s.name body)
  | importOf (i : Import) : Declares (.importOf i) (.importOf i.symbols i.source)

namespace Gen

theorem returns_sectionStmts (ctx : Context) (stmts : List Stmt) :
    Returns (fun as => as.length = stmts.length) (sectionStmts ctx stmts) := by
  induction stmts with
  | nil => exact returns_pure rfl
  | cons stmt stmts ih =>
    refine returns_skip fun a => ih.bind fun as has => returns_pure ?_
    simp [has]

theorem returns_topLevel (ctx : Context) (item : TopLevel) :
    Returns (Declares item) (topLevel ctx item) := by
  cases item with
  | definition d => exact returns_skip fun value => returns_pure (.definition d value)
  | sectionOf s =>
    exact (returns_sectionStmts ctx s.body).bind fun as has => returns_pure (.sectionOf s as has)
  | importOf i => exact returns_pure (.importOf i)

/-- Every item becomes one declaration. -/
theorem returns_topLevels (ctx : Context) (items : List TopLevel) :
    Returns (List.Forall₂ Declares items) (topLevels ctx items) := by
  induction items with
  | nil => exact returns_pure .nil
  | cons item items ih =>
    refine (returns_topLevel ctx item).bind fun d hd => ih.bind fun ds hds => ?_
    exact returns_pure (.cons hd hds)

end Gen

theorem declares_of_generate {program : Program} {m : Module} (h : program.generate = .ok m) :
    List.Forall₂ Declares program.body m.items := by
  obtain ⟨s, hrun, -⟩ := tally_of_generate h
  exact Gen.returns_topLevels _ _ hrun

/-- A text that compiles has an item, so its code has a declaration. -/
theorem items_ne_nil {source : String} {program : Program} {m : Module}
    (hprogram : parseProgram source = .ok program) (h : program.generate = .ok m) : m.items ≠ [] := by
  intro hnil
  have hdeclares := declares_of_generate h
  rw [hnil, List.forall₂_nil_right_iff] at hdeclares
  exact (run_of_parseProgram hprogram).1 hdeclares

end TypeForge
