import TypeForge.Proofs.Output.Text
import Mathlib.Data.List.Pairwise

/-!
# Imports

Behind the import lines of generated text, every imported symbol is made use of, and every
library symbol that shows up as a word is imported, unless the author of the program has written
such a word.
-/

namespace TypeForge

open TypeScript

/-- No two library symbols have the same name. -/
theorem Symbol.eq_of_name_eq {x y : Symbol} (hx : x ∈ emitted) (hy : y ∈ emitted)
    (hname : x.name = y.name) : x = y := by
  have hnames : emitted.Pairwise fun x y => x.name = y.name → x = y := by decide +kernel
  have hsymm : Std.Symm fun x y : Symbol => x.name = y.name → x = y :=
    ⟨fun _ _ h heq => (h heq.symm).symm⟩
  exact hnames.forall_of_forall (fun _ _ _ => rfl) hx hy hname

section

variable {program : Program} {m : Module} (h : program.generate = .ok m)

include h

theorem mem_emitted_of_mem_imports {x : Symbol} (hx : x ∈ m.imports) : x ∈ Symbol.emitted :=
  known_of_mem_atoms h ((mem_imports_iff h x).1 hx)

theorem mem_words_of_mem_imports {x : Symbol} (hx : x ∈ m.imports) : x.name ∈ words m.code := by
  have hmark : x.name ∈ marks m.code := by
    rw [m.marks_code, List.mem_flatMap]
    refine ⟨.symbol x, (mem_imports_iff h x).1 hx, ?_⟩
    rw [Atom.text, marks_of_isCapitalised (isCapitalised_of_mem_emitted (mem_emitted_of_mem_imports h hx))]
    exact List.mem_singleton_self _
  exact (List.mem_filter.1 hmark).1

/-- No name is imported twice, be it from one library or from two. -/
theorem nodup_importsOf : (Library.all.flatMap m.importsOf).Nodup := by
  obtain ⟨s, -, himports, -, htally⟩ := tally_of_generate h
  have hnodup : m.imports.Nodup := himports ▸ htally.nodup
  have hsymbols : (Library.all.flatMap fun library => m.imports.filter (·.library == library)).Nodup := by
    rw [List.nodup_flatMap]
    constructor
    · exact fun library _ => hnodup.filter _
    · have hlibraries : Library.all.Nodup := by decide
      refine hlibraries.imp fun hne => ?_
      intro x hx hx'
      have hlibrary := (List.mem_filter.1 hx).2
      have hlibrary' := (List.mem_filter.1 hx').2
      rw [beq_iff_eq] at hlibrary hlibrary'
      exact hne (hlibrary.symm.trans hlibrary')
  have hnames : Library.all.flatMap m.importsOf =
      (Library.all.flatMap fun library => m.imports.filter (·.library == library)).map Symbol.name := by
    rw [List.map_flatMap]
    rfl
  rw [hnames]
  refine hsymbols.map_on fun x hx y hy hname => ?_
  have hemitted {z : Symbol}
      (hz : z ∈ Library.all.flatMap fun library => m.imports.filter (·.library == library)) :
      z ∈ Symbol.emitted := by
    obtain ⟨library, -, hz⟩ := List.mem_flatMap.1 hz
    exact mem_emitted_of_mem_imports h (List.mem_filter.1 hz).1
  exact Symbol.eq_of_name_eq (hemitted hx) (hemitted hy) hname

/-- A library symbol that is a word of the code is imported, or the author of the program has
written it. -/
theorem mem_imports_of_mem_words (hspelled : AllSpelled program.texts) {x : Symbol}
    (hx : x ∈ Symbol.emitted) (hword : x.name ∈ words m.code) :
    x ∈ m.imports ∨ ∃ text ∈ program.wording, x.name ∈ words text := by
  have hself : x.name ∈ marks x.name := by
    rw [marks_of_isCapitalised (isCapitalised_of_mem_emitted hx)]
    exact List.mem_singleton_self _
  have hnoted : isNoteworthy x.name = true := (List.mem_filter.1 hself).2
  have hatoms : ∀ atom ∈ m.atoms, atom.Known program.texts := fun _ hatom => known_of_mem_atoms h hatom
  rcases written_or_generated hspelled hatoms m.marks_code hword hnoted with
    hwritten | ⟨atom, hatom, htext, hsource⟩
  · exact .inr hwritten
  · have hknown := hatoms atom hatom
    cases atom with
    | source text => exact absurd rfl (hsource text)
    | symbol y =>
      rw [Symbol.eq_of_name_eq hx hknown htext]
      exact .inl ((mem_imports_iff h y).2 hatom)
    | member name =>
      have hmembers : ∀ name ∈ memberNames, ∀ x ∈ Symbol.emitted, x.name ≠ name := by decide +kernel
      exact absurd htext (hmembers name hknown x hx)
    | lifted name =>
      have hlifted := (isLiftedWord_of_isLifted hknown).2
      change x.name = name.render at htext
      rw [← htext, isLiftedWord_of_isCapitalised (isCapitalised_of_mem_emitted hx)] at hlifted
      cases hlifted

end

/-- **The imports of generated text are the library symbols that it uses.**  Every imported name
is a word of the text behind the import lines, and none is imported twice, be it from one
library or from two.  Conversely, if the author of the program has written no library symbol as
a word, then every library symbol that is a word of that text is imported from its library. -/
theorem imports_are_symbols_used {target : Target} {source output : String}
    (h : compile target source = .ok output) :
    ∃ program m, parseProgram source = .ok program ∧ program.generate = .ok m ∧
      output = m.header target ++ m.code ∧
      (∀ library, ∀ name ∈ m.importsOf library, name ∈ words m.code) ∧
      (Library.all.flatMap m.importsOf).Nodup ∧
      ((∀ text ∈ program.wording, ∀ x ∈ Symbol.emitted, x.name ∉ words text) →
        ∀ x ∈ Symbol.emitted, x.name ∈ words m.code → x.name ∈ m.importsOf x.library) := by
  obtain ⟨program, m, hprogram, hm, rfl⟩ := of_compile h
  have hitems := items_ne_nil hprogram hm
  refine ⟨program, m, hprogram, hm, m.render_eq_append hitems target, ?_, nodup_importsOf hm, ?_⟩
  · intro library name hname
    obtain ⟨x, hx, rfl⟩ := List.mem_map.1 hname
    exact mem_words_of_mem_imports hm (List.mem_filter.1 hx).1
  · intro hwording x hx hword
    rcases mem_imports_of_mem_words hm (spelled_of_parseProgram hprogram) hx hword with hmem | hwritten
    · exact List.mem_map_of_mem (List.mem_filter.2 ⟨hmem, beq_self_eq_true _⟩)
    · obtain ⟨text, htext, hword⟩ := hwritten
      exact absurd hword (hwording text htext x hx)

/-- A match whose arm adds and sorts, and an assertion: all three libraries are needed. -/
def importingSource : String :=
  "type f(a, b) = match a \x7b infer x -> [x + b, b.sort()] \x7d; " ++
    "#[s] :\x7b AssertEqual(f(1, 2), 'T') \x7d"

theorem imports_of_importingSource :
    ∃ output program m, compile .published importingSource = .ok output ∧
      parseProgram importingSource = .ok program ∧ program.generate = .ok m ∧
      output = m.header .published ++ m.code ∧
      (∀ text ∈ program.wording, ∀ x ∈ Symbol.emitted, x.name ∉ words text) ∧
      (∀ x ∈ Symbol.emitted, x.name ∈ words m.code ↔ x.name ∈ m.importsOf x.library) ∧
      Library.all.map m.importsOf =
        [["Fn", "PartialApply", "Match", "Call", "Booleans", "Apply"], ["Add"], ["Sort", "Expect"]] := by
  have hcheck : ((parseProgram importingSource).toOption.any fun program =>
      program.generate.toOption.any fun m =>
        (program.wording.all fun text => Symbol.emitted.all fun x => !(words text).contains x.name) &&
          Library.all.map m.importsOf ==
            [["Fn", "PartialApply", "Match", "Call", "Booleans", "Apply"], ["Add"], ["Sort", "Expect"]]) =
      true := by decide +kernel
  obtain ⟨output, houtput, hchecked⟩ := compiles_of_check hcheck .published
  obtain ⟨program, m, hprogram, hm, htext, hused, -, himported⟩ := imports_are_symbols_used houtput
  have hprogram' := hchecked program m hprogram hm
  rw [Bool.and_eq_true, beq_iff_eq] at hprogram'
  have hwording : ∀ text ∈ program.wording, ∀ x ∈ Symbol.emitted, x.name ∉ words text := by
    simpa using hprogram'.1
  refine ⟨output, program, m, houtput, hprogram, hm, htext, hwording, fun x hx => ?_, hprogram'.2⟩
  exact ⟨himported hwording x hx, hused x.library x.name⟩

end TypeForge
