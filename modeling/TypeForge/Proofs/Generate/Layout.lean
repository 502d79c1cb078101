import TypeForge.Compile
import TypeForge.Proofs.Generate.Steps
import TypeForge.Proofs.Parser.Layout

/-!
# Compilation does not depend on layout

Positions in a syntax tree only serve to say where an error is.  So syntax trees that are the
same but for their positions have the same code, or none and then for the same reason; and
since texts of the same words have such syntax trees, they are compiled alike.
-/

namespace TypeForge

open TypeScript

namespace Gen

variable {α β : Type} {m m' : Gen α} {f f' : α → Gen β}

/-- The result of a computation, or what is wrong but not where, and the state behind it. -/
def outcome (m : Gen α) (s : GenState) : Except GenError α × GenState :=
  ((m.run.run s).1.mapError Located.value, (m.run.run s).2)

theorem outcome_bind_apply (m : Gen α) (f : α → Gen β) (s : GenState) :
    outcome (m >>= f) s =
      match outcome m s with
      | (.ok a, t) => outcome (f a) t
      | (.error e, t) => (.error e, t) := by
  unfold outcome
  rw [ExceptT.run_bind, StateT.run_bind]
  rcases m.run.run s with ⟨_ | a, t⟩ <;> rfl

theorem outcome_bind (hm : outcome m = outcome m') (hf : ∀ a, outcome (f a) = outcome (f' a)) :
    outcome (m >>= f) = outcome (m' >>= f') := by
  funext s
  rw [outcome_bind_apply, outcome_bind_apply, hm]
  rcases outcome m' s with ⟨_ | a, t⟩
  · rfl
  · exact congrFun (hf a) t

theorem outcome_withPatternVars (vars : List String) (hm : outcome m = outcome m') :
    outcome (withPatternVars vars m) = outcome (withPatternVars vars m') := by
  funext s
  have hrun := congrFun hm { s with patternVars := vars }
  exact congrArg (fun r => (r.1, { r.2 with patternVars := s.patternVars })) hrun

/-- **What is put together from the same steps has the same outcome.** -/
theorem Steps.outcome_eq {nodes : List Node} {bound : List String} {P : Prop}
    (h : Steps nodes bound P m m') : outcome m = outcome m' := by
  induction h with
  | pure | fail | freshId | require | patternVars => rfl
  | bind _ _ hm hf => exact outcome_bind hm hf
  | patternVar =>
    refine outcome_bind rfl fun vars => ?_
    by_cases h : maxPatternVars ≤ vars.length
    · simp only [h, if_true]
      rfl
    · simp only [h, if_false]
  | withPatternVars vars _ hm => exact outcome_withPatternVars vars hm
  | lift _ _ _ hf => exact outcome_bind rfl fun id => outcome_bind rfl fun _ => hf id

end Gen

theorem TopLevel.arityOf?_unlocated (name : String) (item : TopLevel) :
    item.unlocated.arityOf? name = item.arityOf? name := by
  cases item with
  | definition d =>
    have harity : Definition.arity? ⟨.start, d.isExported, d.name, unlocatedParams d.params,
        d.body.unlocated⟩ = d.arity? := by
      unfold Definition.arity?
      simp only [unlocatedParams_eq_map, List.isEmpty_map, List.length_map]
      cases d.body <;> simp [unlocatedParams_eq_map]
    simp only [TopLevel.unlocated, TopLevel.arityOf?, harity]
  | sectionOf s => rfl
  | importOf i => rfl

theorem Program.context_unlocated (program : Program) :
    program.unlocated.context = program.context := by
  have harity : program.unlocated.arity = program.arity := by
    funext name
    unfold Program.arity Program.unlocated
    rw [← List.map_reverse, List.findSome?_map]
    congr 1
    funext item
    exact item.arityOf?_unlocated name
  rw [Program.context, harity, Program.context]

/-- The code of a program does not depend on its positions. -/
theorem Program.generate_unlocated (program : Program) :
    program.unlocated.generate.mapError Located.value =
      program.generate.mapError Located.value := by
  have hrun : ∀ program : Program, program.generate.mapError Located.value =
      match Gen.outcome (Gen.topLevels program.context program.body) GenState.initial with
      | (.ok items, s) => .ok ⟨s.imports, s.lifted, items⟩
      | (.error e, _) => .error e := by
    intro program
    unfold Program.generate Gen.outcome
    rcases (Gen.topLevels program.context program.body).run.run GenState.initial with ⟨_ | items, s⟩
      <;> rfl
  rw [hrun, hrun, program.context_unlocated, Program.unlocated,
    (Gen.steps_topLevels rfl program.body (List.Subset.refl _)).outcome_eq]

/-! ## Compilation -/

/-- What is wrong with a text, but not where. -/
def CompileError.kind : CompileError → SyntaxError ⊕ GenError
  | parsing e => .inl e.value
  | generation e => .inr e.value

theorem compile_eq_of_parseUnlocated (target : Target) (source : String) :
    (compile target source).mapError CompileError.kind =
      match parseUnlocated source with
      | .ok program =>
        ((program.generate.mapError Located.value).mapError .inr).map (·.render target)
      | .error e => .error (.inl e) := by
  unfold compile parseUnlocated
  cases parseProgram source with
  | error e => rfl
  | ok program =>
    change ((program.generate.mapError .generation >>= fun code => pure (code.render target) :
        Except CompileError String).mapError CompileError.kind) =
      ((program.unlocated.generate.mapError Located.value).mapError .inr).map (·.render target)
    rw [program.generate_unlocated]
    cases program.generate with
    | error e => rfl
    | ok code => rfl

/-- **Compilation does not depend on layout.**  Texts of the same words without template strings
have syntax trees that are the same but for their positions, and for every target the same
code; or they have none, for the same reason. -/
theorem compile_eq_of_words {source source' : String} {ts ts' : List Token}
    (h : Tokenizes source ts) (h' : Tokenizes source' ts')
    (hwords : ts.map Token.word = ts'.map Token.word) (hplain : ∀ t ∈ ts, t.kind ≠ .backtick) :
    parseUnlocated source = parseUnlocated source' ∧
      ∀ target, (compile target source).mapError CompileError.kind =
        (compile target source').mapError CompileError.kind := by
  have hparse := parseUnlocated_eq_of_words h h' hwords hplain
  refine ⟨hparse, fun target => ?_⟩
  rw [compile_eq_of_parseUnlocated, compile_eq_of_parseUnlocated, hparse]

/-- A program in one line. -/
def denseSource : String := "type f(a)=[a+1,b]"

/-- The same program with a comment, a line break and blanks. -/
def spreadSource : String := "type f(a) = // pair\n [a + 1, b]"

theorem compile_spreadSource :
    Tokenizes denseSource (tokensOf denseSource) ∧ Tokenizes spreadSource (tokensOf spreadSource) ∧
      (tokensOf denseSource).map Token.word = (tokensOf spreadSource).map Token.word ∧
      (∀ t ∈ tokensOf denseSource, t.kind ≠ .backtick) ∧
      parseUnlocated denseSource = parseUnlocated spreadSource ∧
      ∀ target, (compile target denseSource).mapError CompileError.kind =
        (compile target spreadSource).mapError CompileError.kind := by
  have h : Tokenizes denseSource (tokensOf denseSource) := tokenizes_tokensOf (by decide +kernel)
  have h' : Tokenizes spreadSource (tokensOf spreadSource) :=
    tokenizes_tokensOf (by decide +kernel)
  have hwords : (tokensOf denseSource).map Token.word = (tokensOf spreadSource).map Token.word := by
    decide +kernel
  have hplain : ∀ t ∈ tokensOf denseSource, t.kind ≠ .backtick := by decide +kernel
  exact ⟨h, h', hwords, hplain, compile_eq_of_words h h' hwords hplain⟩

end TypeForge
