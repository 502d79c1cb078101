import TypeForge.Compile
import TypeForge.Proofs.Generate.Failures
import TypeForge.Proofs.Generate.Succeeds
import TypeForge.Proofs.Parser.Diagnostics

/-!
# Every diagnostic points into the source

Compilation fails while the source is parsed, with an error that fits it, or while code is
generated, at a node of the program; and the nodes of a program stand in its source.
-/

namespace TypeForge

/-- Compilation fails in one of its two stages. -/
theorem compile_eq_error_iff {target : Target} {source : String} {error : CompileError} :
    compile target source = .error error ↔
      (∃ e, parseProgram source = .error e ∧ error = .parsing e) ∨
      ∃ program e, parseProgram source = .ok program ∧ program.generate = .error e ∧
        error = .generation e := by
  cases hprogram : parseProgram source with
  | error e =>
    have hcompile : compile target source = .error (.parsing e) := by
      rw [compile, hprogram]
      rfl
    constructor
    · intro h
      cases hcompile.symm.trans h
      exact .inl ⟨e, rfl, rfl⟩
    · rintro (⟨_, h, rfl⟩ | ⟨_, _, h, -⟩)
      · cases h
        exact hcompile
      · cases h
  | ok program =>
    have hcompile := compile_of_parseProgram hprogram target
    cases hcode : program.generate with
    | error e =>
      rw [hcode] at hcompile
      constructor
      · intro h
        cases hcompile.symm.trans h
        exact .inr ⟨program, e, rfl, hcode, rfl⟩
      · rintro (⟨_, h, -⟩ | ⟨_, _, h, h', rfl⟩)
        · cases h
        · cases h
          cases hcode.symm.trans h'
          exact hcompile
    | ok m =>
      rw [hcode] at hcompile
      constructor
      · intro h
        cases hcompile.symm.trans h
      · rintro (⟨_, h, -⟩ | ⟨_, _, h, h', -⟩)
        · cases h
        · cases h
          cases hcode.symm.trans h'

/-- **Every diagnostic points into the source.**  An error is at a place of the source.  If the
source ends too early, it is at its end.  A token that was not expected is one of the source, of
the kind that is named, and the error is where it stands.  No token is taken where there is none,
no operator is read that is none, and no production calls itself in vain.  What is wrong with a
program is at one of its nodes. -/
theorem diagnostics_point_into_source {target : Target} {source : String} {error : CompileError}
    (h : compile target source = .error error) :
    (∃ before, before <+: source.toList ∧ error.pos = Position.start.advanceOver before) ∧
    (∀ e, error = .parsing e →
      (∀ expected, e.value = .unexpectedEnd expected → e.pos = Position.start.advanceOver source.toList) ∧
      (e.value = .endInExpr → e.pos = Position.start.advanceOver source.toList) ∧
      (∀ actual, (∃ expected, e.value = .unexpected actual expected) ∨
          e.value = .unexpectedTopLevel actual ∨ e.value = .unexpectedInExpr actual →
        ∃ token : Token, token.StandsIn source.toList ∧ token.kind = actual ∧ token.pos = e.pos) ∧
      e.value ≠ .noToken ∧ (∀ actual, e.value ≠ .unexpectedOperator actual) ∧ e.value ≠ .noProgress) ∧
    ∀ e, error = .generation e → ∃ program, parseProgram source = .ok program ∧
      ∃ node ∈ program.nodes, node.pos = e.pos := by
  have hfits := parseProgram_fits source
  obtain ⟨e, hparse, rfl⟩ | ⟨program, e, hparse, hcode, rfl⟩ := compile_eq_error_iff.1 h
  · rw [hparse] at hfits
    have hfits : e.value.Fits source.toList e.pos := hfits
    refine ⟨hfits.inText, ?_, fun _ he => (nomatch he)⟩
    rintro _ ⟨⟩
    refine ⟨?_, ?_, ?_, ?_, ?_, ?_⟩
    · intro expected hvalue
      rwa [hvalue] at hfits
    · intro hvalue
      rwa [hvalue] at hfits
    · rintro actual (⟨expected, hvalue⟩ | hvalue | hvalue) <;> rwa [hvalue] at hfits
    · intro hvalue
      rwa [hvalue] at hfits
    · intro actual hvalue
      rwa [hvalue] at hfits
    · intro hvalue
      rwa [hvalue] at hfits
  · rw [hparse] at hfits
    have hnodes : NodesIn source.toList program.nodes := hfits
    obtain ⟨node, hnode, hpos⟩ := exists_node_of_generate hcode
    refine ⟨?_, fun _ he => (nomatch he), ?_⟩
    · have hin := hnodes node hnode
      rwa [hpos] at hin
    · rintro _ ⟨⟩
      exact ⟨program, hparse, node, hnode, hpos⟩

/-- A bracket where an element is missing, behind a comment and a template string. -/
def missingElement : String := "// list\ntype A = [\x60a$\x7b[1]\x7d\x60,\n  ]"

theorem missingElement_diagnostic :
    ∃ e, compile .published missingElement = .error (.parsing e) ∧
      e.value = .unexpectedInExpr .rbracket ∧ e.pos = ⟨3, 3⟩ ∧
      (∃ before, before <+: missingElement.toList ∧ e.pos = Position.start.advanceOver before) ∧
      ∃ token : Token, token.StandsIn missingElement.toList ∧ token.kind = .rbracket ∧ token.pos = e.pos := by
  have hcheck : ((parseProgram missingElement).map fun _ => ()) =
      .error ⟨⟨3, 3⟩, .unexpectedInExpr .rbracket⟩ := by
    decide +kernel
  cases hparse : parseProgram missingElement with
  | ok program =>
    rw [hparse] at hcheck
    cases hcheck
  | error e =>
    rw [hparse] at hcheck
    cases hcheck
    have hcompile : compile .published missingElement = .error (.parsing _) :=
      compile_eq_error_iff.2 (.inl ⟨_, hparse, rfl⟩)
    obtain ⟨hpos, hparsing, -⟩ := diagnostics_point_into_source hcompile
    obtain ⟨-, -, htoken, -⟩ := hparsing _ rfl
    exact ⟨_, hcompile, rfl, rfl, hpos, htoken _ (.inr (.inr rfl))⟩

end TypeForge
